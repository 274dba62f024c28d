import CnC.Scheduler.Ledger

/-!
# Scheduler bypass

In every run in which no pass starts with an instance whose successor another pass
has still to clear, every counted step is executed by one pass and counted down once,
with and without bypass.
-/

namespace CnC.Execute

open Transition CnC.Scheduler Places

universe u

variable {Step Item Thread : Type u} [DecidableEq Step] [DecidableEq Thread]

def Kept (bypass : Bool) (s : State Step Item Thread) : Prop :=
  ∃ place ledger, Sound bypass s place ∧ Booked s ledger

variable {bypass : Bool} {s next : State Step Item Thread} {thread : Thread} {step : Step}
  {ticket : Nat} {phase nextPhase : Phase Step}
  {place : Step → Option (Place Thread)} {ledger : Nat → Option (Place Thread)}

omit [DecidableEq Thread] in
@[simp]
theorem modify_succStep (change : Schedulable → Schedulable) :
    (s.modify step change).succStep = s.succStep := by
  funext other
  by_cases same : other = step
  · subst same
    simp [State.succStep, State.modify]
  · simp [State.succStep, State.modify, same]

omit [DecidableEq Thread] in
@[simp]
theorem modify_sched_self (change : Schedulable → Schedulable) :
    ((s.modify step change).inst step).sched = change (s.inst step).sched := by
  simp [State.modify]

omit [DecidableEq Thread] in
theorem modify_sched_other {other : Step} (different : other ≠ step)
    (change : Schedulable → Schedulable) :
    ((s.modify step change).inst other).sched = (s.inst other).sched := by
  simp [State.modify, different]

omit [DecidableEq Thread] in
theorem modify_id (s : State Step Item Thread) (step : Step) : s.modify step id = s := by
  simp [State.modify]

theorem passStep_setPass (s : State Step Item Thread) (thread : Thread) (step : Step)
    (pass : Option (Pass Step)) : PassStep s (s.setPass thread pass) thread step pass :=
  ⟨rfl, rfl, rfl, rfl, fun _ _ => rfl, fun _ _ => rfl,
    fun _ different => setPass_successor_other different pass⟩

theorem passStep_modify (s : State Step Item Thread) (thread : Thread) (step : Step)
    (change : Schedulable → Schedulable) (pass : Option (Pass Step)) :
    PassStep s ((s.modify step change).setPass thread pass) thread step pass := by
  refine ⟨rfl, rfl, rfl, rfl, fun _ different => modify_sched_other different change,
    fun _ _ => rfl, fun other different => ?_⟩
  rw [setPass_successor_other different, State.successor, State.successor, modify_succStep]
  rfl

theorem PassStep.job_other {pass : Option (Pass Step)}
    (passStep : PassStep s next thread step pass) (r : Place Thread) (notPass : r ≠ .pass thread)
    (notSucc : r ≠ .succ thread) : next.job r = s.job r := by
  cases r with
  | queue number => simp only [State.job, passStep.queue]
  | call other => simp only [State.job, passStep.call]
  | pass other =>
      have different : other ≠ thread := fun same => notPass (congrArg Place.pass same)
      simp only [State.job, passStep.pass, Function.update_of_ne different]
  | succ other =>
      have different : other ≠ thread := fun same => notSucc (congrArg Place.succ same)
      exact passStep.succ other different

theorem PassStep.booked {pass : Option (Pass Step)}
    (passStep : PassStep s next thread step pass) (booked : Booked s ledger)
    (job : next.job (.pass thread) = s.job (.pass thread))
    (successor : next.successor thread = s.successor thread)
    (calls : next.history.calls = s.history.calls)
    (started : next.history.started = s.history.started)
    (ended : next.history.ended = s.history.ended)
    (inFlight : next.userStepsInFlight = s.userStepsInFlight)
    (waiters : next.waiters = s.waiters) : Booked next ledger := by
  refine booked.same ?_ calls started ended (by rw [inFlight, waiters])
  intro r
  by_cases isPass : r = .pass thread
  · rw [isPass, job]
  · by_cases isSucc : r = .succ thread
    · rw [isSucc]
      exact successor
    · exact passStep.job_other r isPass isSucc

theorem PassStep.booked_decrement {pass : Option (Pass Step)}
    (passStep : PassStep s next thread step pass) (booked : Booked s ledger)
    (here : s.job (.pass thread) = some (step, ticket))
    (left : next.job (.pass thread) = none)
    (successor : next.successor thread = s.successor thread)
    (calls : next.history.calls = s.history.calls)
    (started : next.history.started = s.history.started)
    (ended : next.history.ended =
      Function.update s.history.ended ticket (s.history.ended ticket + 1))
    (inFlight : next.userStepsInFlight = s.userStepsInFlight - 1)
    (waiters : next.waiters = s.waiters) : Booked next (Function.update ledger ticket none) := by
  refine booked.decrement here rfl left ?_ calls started ended inFlight waiters
  intro r notPass
  by_cases isSucc : r = .succ thread
  · rw [isSucc]
    exact successor
  · exact passStep.job_other r notPass isSucc

theorem callStep_setCall (s : State Step Item Thread) (thread : Thread)
    (call : Option (Call Step Item)) : CallStep s (s.setCall thread call) thread none call :=
  ⟨rfl, rfl, rfl, rfl, fun _ _ => rfl, fun _ _ => rfl, fun _ => rfl⟩

theorem callStep_modify (s : State Step Item Thread) (thread : Thread) (step : Step)
    (change : Schedulable → Schedulable) (call : Option (Call Step Item)) :
    CallStep s ((s.modify step change).setCall thread call) thread (some step) call :=
  ⟨rfl, rfl, rfl, rfl,
    fun _ different => modify_sched_other (fun same => different (congrArg some same.symm)) change,
    fun _ _ => rfl, fun other => congrFun (modify_succStep change) other⟩

theorem CallStep.job_other {affected : Option Step} {call : Option (Call Step Item)}
    (callStep : CallStep s next thread affected call) (r : Place Thread)
    (notCall : r ≠ .call thread) : next.job r = s.job r := by
  cases r with
  | queue number => simp only [State.job, callStep.queue]
  | pass other => simp only [State.job, callStep.pass]
  | succ other =>
      have same : next.succStep = s.succStep := funext callStep.succStep
      simp only [State.job, State.successor, callStep.pass, same]
  | call other =>
      have different : other ≠ thread := fun same => notCall (congrArg Place.call same)
      simp only [State.job, callStep.call, Function.update_of_ne different]

theorem CallStep.job_call {affected : Option Step} {call : Option (Call Step Item)}
    (callStep : CallStep s next thread affected call) :
    next.job (.call thread) = call.bind Call.job := by
  simp only [State.job, callStep.call, Function.update_self]

theorem CallStep.booked {affected : Option Step} {call : Option (Call Step Item)}
    (callStep : CallStep s next thread affected call) (booked : Booked s ledger)
    (job : call.bind Call.job = s.job (.call thread))
    (calls : next.history.calls = s.history.calls)
    (started : next.history.started = s.history.started)
    (ended : next.history.ended = s.history.ended)
    (inFlight : next.userStepsInFlight = s.userStepsInFlight)
    (waiters : next.waiters = s.waiters) : Booked next ledger := by
  refine booked.same ?_ calls started ended (by rw [inFlight, waiters])
  intro r
  by_cases isCall : r = .call thread
  · rw [isCall, callStep.job_call, job]
  · exact callStep.job_other r isCall

section Kept

variable (sound : Sound bypass s place) (booked : Booked s ledger)

include sound booked

theorem kept_stays (change : Schedulable → Schedulable)
    (found : s.pass thread = some ⟨step, ticket, phase⟩) (owns : phase.owns = true)
    (nextOwns : nextPhase.owns = true) (counted : phase.counted = true)
    (nextCounted : nextPhase.counted = true) (noCall : s.call thread = none)
    (read : ∀ newS, nextPhase.newS = some newS → newS = s.succStep step)
    (fits : phase.mode.Fits (s.inst step).sched (s.memberships step) →
      nextPhase.mode.Fits (change (s.inst step).sched) (s.memberships step)) :
    Kept bypass ((s.modify step change).setPass thread (some ⟨step, ticket, nextPhase⟩)) := by
  have passStep := passStep_modify s thread step change (some ⟨step, ticket, nextPhase⟩)
  have nextFound : ((s.modify step change).setPass thread
      (some ⟨step, ticket, nextPhase⟩)).pass thread = some ⟨step, ticket, nextPhase⟩ := by
    simp [State.setPass]
  have succStep : ∀ other, ((s.modify step change).setPass thread
      (some ⟨step, ticket, nextPhase⟩)).succStep other = s.succStep other := by
    intro other
    rw [setPass_succStep, modify_succStep]
  refine ⟨place, ledger, passStep.sound_stays sound found rfl owns nextOwns noCall succStep read
    ?_, ?_⟩
  · intro before
    rw [show ((s.modify step change).setPass thread (some ⟨step, ticket, nextPhase⟩)).inst step =
      (s.modify step change).inst step from rfl, modify_sched_self]
    exact fits before
  · refine passStep.booked booked ?_
      (sound.pointers.successor_stays found nextFound owns succStep read) rfl rfl rfl rfl rfl
    simp only [State.job, found, nextFound, Option.bind_some, counted, nextCounted, if_true]

theorem kept_leaves (change : Schedulable → Schedulable)
    (found : s.pass thread = some ⟨step, ticket, phase⟩) (owns : phase.owns = true)
    (nextOwns : nextPhase.owns = false) (inWindow : nextPhase.inWindow = true)
    (unmarked : nextPhase.writes = false) (counted : phase.counted = true)
    (nextCounted : nextPhase.counted = true) (noCall : s.call thread = none)
    (newS : nextPhase.newS = phase.newS) (isRead : phase.newS.isSome)
    (stands : phase.mode.Fits (s.inst step).sched (s.memberships step) →
      s.memberships step = 0 ∨
        (change (s.inst step).sched).nSuspenders = s.memberships step) :
    Kept bypass ((s.modify step change).setPass thread (some ⟨step, ticket, nextPhase⟩)) := by
  have passStep := passStep_modify s thread step change (some ⟨step, ticket, nextPhase⟩)
  have nextFound : ((s.modify step change).setPass thread
      (some ⟨step, ticket, nextPhase⟩)).pass thread = some ⟨step, ticket, nextPhase⟩ := by
    simp [State.setPass]
  refine ⟨_, ledger, passStep.sound_leaves sound found rfl owns nextOwns noCall ?_ newS isRead
    unmarked ?_ ?_, ?_⟩
  · intro other
    rw [setPass_succStep, modify_succStep]
  · intro closed
    rw [inWindow] at closed
    cases closed
  · intro before
    rw [show ((s.modify step change).setPass thread (some ⟨step, ticket, nextPhase⟩)).inst step =
      (s.modify step change).inst step from rfl, modify_sched_self]
    exact stands before
  · refine passStep.booked booked ?_ (successor_of_newS found nextFound newS isRead) rfl rfl rfl
      rfl rfl
    simp only [State.job, found, nextFound, Option.bind_some, counted, nextCounted, if_true]

theorem kept_begin (found : s.pass thread = some ⟨step, ticket, .begin⟩) :
    Kept bypass ((s.modify step fun sched => sched.suspend.resetWasSuspended).setPass thread
      (some ⟨step, ticket, .executing⟩)) := by
  have noCall := sound.pointers.no_call found (by simp [State.current, found])
  refine kept_stays sound booked _ found rfl rfl rfl rfl noCall ?_ ?_
  · intro newS impossible
    cases impossible
  · rintro ⟨noMember, zero⟩
    refine ⟨?_, fun _ => noMember⟩
    simp [Schedulable.suspend, Schedulable.resetWasSuspended, zero, noMember]

theorem kept_returned {success : Bool}
    (found : s.pass thread = some ⟨step, ticket, .returned success⟩) :
    Kept bypass (s.setPass thread (some ⟨step, ticket,
      .read success (if bypass then (s.inst step).succStep else none)⟩)) := by
  have noCall := sound.pointers.no_call found (by simp [State.current, found])
  have kept := kept_stays sound booked id found rfl
    (rfl : (Phase.read success (if bypass then (s.inst step).succStep else none)).owns = true)
    rfl rfl noCall ?_ ?_
  · rwa [modify_id] at kept
  · intro newS isNewS
    cases isNewS
    cases isBypass : bypass with
    | true => rfl
    | false => exact (sound.pointers.direct isBypass step).symm
  · cases success <;> exact id

theorem kept_unsuspend {newS : Option (Step × Nat)}
    (found : s.pass thread = some ⟨step, ticket, .read false newS⟩) :
    Kept bypass ((s.modify step fun sched => sched.unsuspend.1).setPass thread
      (some ⟨step, ticket, if (s.inst step).sched.unsuspend.2 then .again newS
        else .failed newS⟩)) := by
  have noCall := sound.pointers.no_call found (by simp [State.current, found])
  split
  · rename_i last
    refine kept_stays sound booked _ found rfl rfl rfl rfl noCall ?_ ?_
    · intro value isValue
      cases isValue
      exact sound.pointers.read thread _ newS found rfl rfl
    · intro fits
      have one : (s.inst step).sched.nSuspenders = 1 := by
        simpa [Schedulable.unsuspend] using last
      simp only [Phase.mode, Mode.Fits] at fits ⊢
      simp only [Schedulable.unsuspend]
      omega
  · refine kept_leaves sound booked _ found rfl rfl rfl rfl rfl rfl noCall rfl rfl ?_
    intro fits
    simp only [Phase.mode, Mode.Fits] at fits
    right
    simp only [Schedulable.unsuspend]
    omega

theorem kept_again {newS : Option (Step × Nat)}
    (found : s.pass thread = some ⟨step, ticket, .again newS⟩) :
    Kept bypass (s.setPass thread (some ⟨step, ticket,
      if (s.inst step).sched.status = .done then .failed newS else .begin⟩)) := by
  have noCall := sound.pointers.no_call found (by simp [State.current, found])
  split
  · have kept := kept_leaves sound booked id found rfl
      (rfl : (Phase.failed newS).owns = false) rfl rfl rfl rfl noCall rfl rfl
      fun fits => .inl fits.1
    rwa [modify_id] at kept
  · have kept := kept_stays sound booked id found rfl (rfl : (Phase.begin : Phase Step).owns = true)
      rfl rfl noCall (fun _ impossible => by cases impossible) id
    rwa [modify_id] at kept

theorem kept_success {newS : Option (Step × Nat)}
    (found : s.pass thread = some ⟨step, ticket, .read true newS⟩) :
    Kept bypass ((s.decrement ticket).setPass thread (some ⟨step, ticket, .delete newS⟩)) := by
  have noCall := sound.pointers.no_call found (by simp [State.current, found])
  have passStep : PassStep s
      ((s.decrement ticket).setPass thread (some ⟨step, ticket, .delete newS⟩)) thread step
      (some ⟨step, ticket, .delete newS⟩) :=
    ⟨rfl, rfl, rfl, rfl, fun _ _ => rfl, fun _ _ => rfl,
      fun _ different => setPass_successor_other different _⟩
  have nextFound : ((s.decrement ticket).setPass thread
      (some ⟨step, ticket, .delete newS⟩)).pass thread = some ⟨step, ticket, .delete newS⟩ := by
    simp [State.setPass]
  refine ⟨place, _, passStep.sound_stays sound found rfl rfl rfl noCall (fun _ => rfl) ?_ id,
    passStep.booked_decrement booked ?_ ?_ (successor_of_newS found nextFound rfl rfl) rfl rfl rfl
      rfl rfl⟩
  · intro value isValue
    cases isValue
    exact sound.pointers.read thread _ newS found rfl rfl
  · simp [State.job, found, Phase.counted]
  · simp [State.job, nextFound, Phase.counted]

theorem kept_delete {newS : Option (Step × Nat)}
    (found : s.pass thread = some ⟨step, ticket, .delete newS⟩) :
    Kept bypass ((s.delete step).setPass thread (some ⟨step, ticket, .next newS⟩)) := by
  have noCall := sound.pointers.no_call found (by simp [State.current, found])
  have passStep : PassStep s
      ((s.delete step).setPass thread (some ⟨step, ticket, .next newS⟩)) thread step
      (some ⟨step, ticket, .next newS⟩) :=
    ⟨rfl, rfl, rfl, rfl, fun _ _ => rfl, fun _ _ => rfl,
      fun _ different => setPass_successor_other different _⟩
  have nextFound : ((s.delete step).setPass thread
      (some ⟨step, ticket, .next newS⟩)).pass thread = some ⟨step, ticket, .next newS⟩ := by
    simp [State.setPass]
  have here : s.owned (.pass thread) = some step := by simp [State.owned, found, Phase.owns]
  have fits := sound.owned.at_ here
  simp only [State.mode, found, Option.map_some, Option.getD_some, Phase.mode, Mode.Fits] at fits
  refine ⟨_, ledger, passStep.sound_leaves sound found rfl rfl rfl noCall (fun _ => rfl) rfl rfl
    rfl (fun _ => fits.1) (fun _ => .inl fits.1), passStep.booked booked ?_
    (successor_of_newS found nextFound rfl rfl) rfl rfl rfl rfl rfl⟩
  simp [State.job, found, nextFound, Phase.counted]

theorem kept_failed {newS : Option (Step × Nat)}
    (found : s.pass thread = some ⟨step, ticket, .failed newS⟩) :
    Kept bypass ((s.decrement ticket).setPass thread (some ⟨step, ticket,
      if bypass then .clear newS else .next newS⟩)) := by
  have noCall := sound.pointers.no_call found (by simp [State.current, found])
  have passStep : ∀ phase, PassStep s
      ((s.decrement ticket).setPass thread (some ⟨step, ticket, phase⟩)) thread step
      (some ⟨step, ticket, phase⟩) := fun _ =>
    ⟨rfl, rfl, rfl, rfl, fun _ _ => rfl, fun _ _ => rfl,
      fun _ different => setPass_successor_other different _⟩
  have nextFound : ∀ phase : Phase Step, ((s.decrement ticket).setPass thread
      (some ⟨step, ticket, phase⟩)).pass thread = some ⟨step, ticket, phase⟩ := by
    intro phase
    simp [State.setPass]
  have here : s.job (.pass thread) = some (step, ticket) := by
    simp [State.job, found, Phase.counted]
  cases isBypass : bypass with
  | true =>
      refine ⟨place, _, (passStep (.clear newS)).sound_ends (isBypass ▸ sound) found rfl noCall
        (fun _ => rfl) (fun _ => rfl) (fun _ => rfl) ?_ ?_ ?_ (.inl ?_),
        (passStep (.clear newS)).booked_decrement booked here ?_
          (successor_of_newS found (nextFound _) rfl rfl) rfl rfl rfl rfl rfl⟩
      · intro after isAfter
        cases isAfter
        exact ⟨rfl, rfl, rfl⟩
      · exact fun impossible => by cases impossible
      · exact fun impossible => by cases impossible
      · simp [State.windowAt, found, nextFound, Phase.inWindow]
      · simp [State.job, nextFound, Phase.counted]
  | false =>
      refine ⟨place, _, (passStep (.next newS)).sound_ends (isBypass ▸ sound) found rfl noCall
        (fun _ => rfl) (fun _ => rfl) (fun _ => rfl) ?_ ?_ ?_ (.inr ⟨rfl, ?_⟩),
        (passStep (.next newS)).booked_decrement booked here ?_
          (successor_of_newS found (nextFound _) rfl rfl) rfl rfl rfl rfl rfl⟩
      · intro after isAfter
        cases isAfter
        exact ⟨rfl, rfl, rfl⟩
      · exact fun impossible => by cases impossible
      · intro _ after isAfter
        cases isAfter
        rfl
      · simp [State.windowAt, nextFound, Phase.inWindow]
      · simp [State.job, nextFound, Phase.counted]

theorem job_setSucc (found : s.pass thread = some ⟨step, ticket, phase⟩)
    (counted : phase.counted = false) (nextCounted : nextPhase.counted = false)
    (newS : nextPhase.newS = phase.newS) (isRead : phase.newS.isSome) {target : Step}
    (notInPass : ¬ InPass place target) (succ : Option (Step × Nat)) :
    Booked ((s.setSucc target succ).setPass thread (some ⟨step, ticket, nextPhase⟩)) ledger := by
  refine booked.same ?_ rfl rfl rfl rfl
  intro r
  cases r with
  | queue number => rfl
  | call other => rfl
  | pass other =>
      by_cases same : other = thread
      · subst same
        simp [State.job, State.setPass, found, counted, nextCounted]
      · simp [State.job, State.setPass, State.setSucc, same]
  | succ other =>
      by_cases same : other = thread
      · subst same
        refine successor_of_newS found ?_ newS isRead
        simp [State.setPass]
      · simp only [State.job]
        rw [setPass_successor_other same]
        exact successor_setSucc sound target notInPass succ other

theorem kept_clear {newS : Option (Step × Nat)}
    (found : s.pass thread = some ⟨step, ticket, .clear newS⟩) :
    Kept bypass ((s.setSucc step none).setPass thread (some ⟨step, ticket, .mark newS⟩)) := by
  cases isBypass : bypass with
  | false =>
      have impossible := sound.pointers.unmarked isBypass thread _ found
      cases impossible
  | true =>
      subst isBypass
      have isIn : s.windowAt thread = some step := by simp [State.windowAt, found, Phase.inWindow]
      have notInPass := sound.pointers.window rfl step ⟨thread, isIn⟩
      refine ⟨place, ledger, sound.setSucc found rfl (rfl : (Phase.mark newS).owns = false) rfl rfl
        step none notInPass (.inr isIn) ?_,
        job_setSucc sound booked found rfl (rfl : (Phase.mark newS).counted = false) rfl rfl
          notInPass none⟩
      exact fun value impossible => by cases impossible

theorem kept_mark {newS : Option (Step × Nat)}
    (found : s.pass thread = some ⟨step, ticket, .mark newS⟩)
    (marked : s.advancePass bypass thread ⟨step, ticket, .mark newS⟩ = some next) :
    Kept bypass next := by
  have noCall := sound.pointers.no_call found (by simp [State.current, found])
  have closed : s.windowAt thread = none := by simp [State.windowAt, found, Phase.inWindow]
  have unmarked : Kept bypass (s.setPass thread (some ⟨step, ticket, .next newS⟩)) := by
    have passStep := passStep_setPass s thread step (some ⟨step, ticket, .next newS⟩)
    have nextFound : (s.setPass thread (some ⟨step, ticket, .next newS⟩)).pass thread =
        some ⟨step, ticket, .next newS⟩ := by
      simp [State.setPass]
    refine ⟨place, ledger, passStep.sound_ends sound found rfl noCall (fun _ => rfl)
      (fun _ => rfl) (fun _ => rfl) ?_ ?_ ?_ (.inl ?_), passStep.booked booked ?_
      (successor_of_newS found nextFound rfl rfl) rfl rfl rfl rfl rfl⟩
    · intro after isAfter
      cases isAfter
      exact ⟨rfl, rfl, rfl⟩
    · exact fun impossible => by cases impossible
    · intro _ after isAfter
      cases isAfter
      rfl
    · rw [closed]
      simp [State.windowAt, nextFound, Phase.inWindow]
    · simp [State.job, found, nextFound, Phase.counted]
  cases newS with
  | none =>
      simp only [State.advancePass, Option.some.injEq] at marked
      exact marked ▸ unmarked
  | some succ =>
      simp only [State.advancePass] at marked
      split at marked
      · cases marked
        exact unmarked
      · rename_i different
        cases marked
        cases isBypass : bypass with
        | false =>
            have impossible := sound.pointers.unmarked isBypass thread _ found
            cases impossible
        | true =>
            subst isBypass
            have isSuccessor : s.successor thread = some succ := by
              simp [State.successor, found, Pass.successor, Phase.newS, different]
            have here : s.owned (.succ thread) = some succ.1 := by simp [State.owned, isSuccessor]
            have notInPass : ¬ InPass place succ.1 := by
              rintro ⟨at_, isAt⟩
              rw [(sound.owned.located _ _).mp here] at isAt
              cases isAt
            refine ⟨place, ledger, sound.setSucc found rfl
              (rfl : (Phase.next (some succ)).owns = false) rfl rfl succ.1 (some succ) notInPass
              (.inl closed) ?_,
              job_setSucc sound booked found rfl (rfl : (Phase.next (some succ)).counted = false)
                rfl rfl notInPass (some succ)⟩
            intro value isValue
            cases isValue
            rfl

theorem kept_next {newS : Option (Step × Nat)}
    (found : s.pass thread = some ⟨step, ticket, .next newS⟩)
    (allowed : bypass = true → ∀ succ, newS = some succ → succ.1 ≠ step → ¬ s.InWindow succ.1)
    (advanced : s.advancePass bypass thread ⟨step, ticket, .next newS⟩ = some next) :
    Kept bypass next := by
  have noCall := sound.pointers.no_call found (by simp [State.current, found])
  have closed : s.windowAt thread = none := by simp [State.windowAt, found, Phase.inWindow]
  have ended : s.successor thread = none → Kept bypass (s.setPass thread none) := by
    intro nothing
    have passStep := passStep_setPass s thread step none
    refine ⟨place, ledger, passStep.sound_ends sound found rfl noCall (fun _ => rfl)
      (fun _ => rfl) (fun _ => rfl) ?_ (fun _ => nothing) ?_ (.inl ?_), passStep.booked booked ?_ ?_
      rfl rfl rfl rfl rfl⟩
    · exact fun after impossible => by cases impossible
    · exact fun _ after impossible => by cases impossible
    · rw [closed]
      simp [State.windowAt, State.setPass]
    · simp [State.job, found, State.setPass, Phase.counted]
    · rw [nothing]
      simp [State.successor, State.setPass]
  cases newS with
  | none =>
      simp only [State.advancePass, Option.some.injEq] at advanced
      subst advanced
      exact ended (by simp [State.successor, found, Pass.successor, Phase.newS])
  | some succ =>
      simp only [State.advancePass] at advanced
      split at advanced
      · rename_i same
        cases advanced
        exact ended (by simp [State.successor, found, Pass.successor, Phase.newS, same])
      · rename_i different
        cases advanced
        have isSuccessor : s.successor thread = some succ := by
          simp [State.successor, found, Pass.successor, Phase.newS, different]
        have here : s.owned (.succ thread) = some succ.1 := by simp [State.owned, isSuccessor]
        have empty : s.owned (.pass thread) = none := by simp [State.owned, found, Phase.owns]
        have started : Sound bypass (s.start thread succ.1 succ.2)
            (Function.update place succ.1 (some (.pass thread))) ∧
              (s.start thread succ.1 succ.2).successor thread = none :=
          sound.start (.inr rfl) here empty noCall
            (fun isBypass => allowed isBypass succ rfl different) closed (.inr rfl) rfl rfl rfl rfl
            (fun _ => by rw [if_neg (by simp)]; rfl) rfl
        refine ⟨_, _, started.1, booked.move (p := .succ thread) (q := .pass thread) isSuccessor
          (by simp) ?_ ?_ started.2 ?_ rfl rfl rfl rfl rfl⟩
        · simp [State.job, found, Phase.counted]
        · simp [State.job, State.start, State.setPass, Phase.counted]
        · intro r notSucc notPass
          cases r with
          | queue number => rfl
          | call other => rfl
          | pass other =>
              have elsewhere : other ≠ thread := fun same => notPass (congrArg Place.pass same)
              simp [State.job, State.start, State.setPass, elsewhere]
          | succ other =>
              have elsewhere : other ≠ thread := fun same => notSucc (congrArg Place.succ same)
              exact setPass_successor_other elsewhere _

theorem kept_pop (noPass : s.pass thread = none) (noCall : s.call thread = none)
    (queued : s.queue ticket = some step) (allowed : bypass = true → ¬ s.InWindow step) :
    Kept bypass
      ({ s with queue := Function.update s.queue ticket none }.start thread step ticket) := by
  have here : s.owned (.queue ticket) = some step := queued
  have nothing : s.successor thread = none := by simp [State.successor, noPass]
  have queues : ∀ number,
      ({ s with queue := Function.update s.queue ticket none }.start thread step ticket).queue
        number = if (Place.queue ticket : Place Thread) = .queue number then none
          else s.queue number := by
    intro number
    by_cases same : number = ticket
    · simp [State.start, State.setPass, same]
    · simp [State.start, State.setPass, same, Ne.symm same]
  have started : Sound bypass
      ({ s with queue := Function.update s.queue ticket none }.start thread step ticket)
      (Function.update place step (some (.pass thread))) ∧
        ({ s with queue := Function.update s.queue ticket none }.start thread step
          ticket).successor thread = none :=
    sound.start (.inl ⟨ticket, rfl⟩) here (by simp [State.owned, noPass]) noCall allowed
      (by simp [State.windowAt, noPass]) (.inl (by simp [State.owned, nothing])) rfl rfl rfl rfl
      queues rfl
  refine ⟨_, _, started.1, booked.move (p := .queue ticket) (q := .pass thread)
    (by simp [State.job, queued]) (by simp) (by simp [State.job, noPass]) ?_ ?_ ?_ rfl rfl rfl rfl
    rfl⟩
  · simp [State.job, State.start, State.setPass, Phase.counted]
  · simp [State.job, State.start, State.setPass]
  · intro r notQueue notPass
    cases r with
    | call other => rfl
    | queue number =>
        have different : number ≠ ticket := fun same => notQueue (congrArg Place.queue same)
        simp [State.job, State.start, State.setPass, different]
    | pass other =>
        have different : other ≠ thread := fun same => notPass (congrArg Place.pass same)
        simp [State.job, State.start, State.setPass, different]
    | succ other =>
        by_cases same : other = thread
        · subst same
          exact started.2.trans nothing.symm
        · exact setPass_successor_other same _

theorem kept_return {outcome : Outcome} (found : s.pass thread = some ⟨step, ticket, .executing⟩)
    (noCall : s.call thread = none)
    (returned : s.return_ thread step ticket outcome = some next) : Kept bypass next := by
  have unread : ∀ success newS, (Phase.returned success : Phase Step).newS = some newS →
      newS = s.succStep step := fun _ _ impossible => by cases impossible
  cases outcome with
  | unfinished =>
      cases returned
      have kept := kept_stays sound booked id found rfl
        (rfl : (Phase.returned false : Phase Step).owns = true) rfl rfl noCall (unread false)
        fun fits => fits.1
      rwa [modify_id] at kept
  | success =>
      simp only [State.return_, Option.ite_none_left_eq_some] at returned
      obtain ⟨notSuspended, isNext⟩ := returned
      cases isNext
      refine kept_stays sound booked _ found rfl rfl rfl rfl noCall (unread true) ?_
      rintro ⟨counter, replayed⟩
      have noMember := replayed (by simpa using notSuspended)
      exact ⟨noMember, by simpa [noMember] using counter⟩
  | canceled =>
      simp only [State.return_, Option.ite_none_left_eq_some] at returned
      obtain ⟨notSuspended, isNext⟩ := returned
      cases isNext
      have kept := kept_stays sound booked id found rfl
        (rfl : (Phase.returned true : Phase Step).owns = true) rfl rfl noCall (unread true) ?_
      · rwa [modify_id] at kept
      · rintro ⟨counter, replayed⟩
        have noMember := replayed (by simpa using notSuspended)
        exact ⟨noMember, by simpa [noMember] using counter⟩

omit [DecidableEq Thread] in
theorem kept_suspend {p : Place Thread} (here : s.owned p = some step)
    (running : s.mode p = .running) (item : Item) : Kept bypass (s.suspend step item) := by
  have isPlace := (sound.owned.located _ _).mp here
  have holds : ∀ r, (s.suspend step item).owned r = s.owned r := by
    intro r
    cases r with
    | queue number => rfl
    | pass other => rfl
    | call other => rfl
    | succ other =>
        simp only [State.owned, State.successor]
        rw [show (s.suspend step item).succStep = s.succStep from
          modify_succStep Schedulable.suspend]
        rfl
  have unmoved : Function.update place step (some p) = place := by
    rw [← isPlace, Function.update_eq_self]
  have located := sound.owned.located.congr holds
  rw [← unmoved] at located
  have members : ∀ other, other ≠ step →
      (s.suspend step item).memberships other = s.memberships other := by
    intro other different
    simp [State.memberships, State.suspend, Ne.symm different, State.modify]
  have oneMore : (s.suspend step item).memberships step = s.memberships step + 1 := by
    simp [State.memberships, State.suspend, State.modify]
  refine ⟨place, ledger, ⟨?_, ?_⟩, ?_⟩
  · have changed := sound.owned.change step located rfl (sound.owned.created here)
      (fun other different => modify_sched_other different Schedulable.suspend) members
      (fun _ _ _ _ => rfl) ?_
    · rwa [unmoved] at changed
    · have before := sound.owned.at_ here
      have sameMode : (s.suspend step item).mode p = s.mode p := by cases p <;> rfl
      have sched : ((s.suspend step item).inst step).sched = (s.inst step).sched.suspend :=
        modify_sched_self Schedulable.suspend
      simp only [State.Standing, sameMode, running, oneMore, sched]
      rw [running] at before
      refine ⟨?_, fun notSuspended => by cases notSuspended⟩
      simp [Schedulable.suspend, before.1]
  · have succStep : (s.suspend step item).succStep = s.succStep :=
      modify_succStep Schedulable.suspend
    refine sound.pointers.change step (fun other _ => congrFun succStep other)
      (fun _ _ => Iff.rfl) (fun _ _ => Iff.rfl) ?_ ?_ sound.pointers.directNewS
      sound.pointers.unmarked (fun isBypass => sound.pointers.window isBypass step) ?_ ?_ ?_
      sound.pointers.busy
    · intro other different isAlive
      rcases isAlive with placed | member
      · exact .inl placed
      · exact .inr (members other different ▸ member)
    · intro isDirect
      rw [succStep]
      exact sound.pointers.direct isDirect step
    · intro _
      rw [succStep]
      exact sound.pointers.unhung step (.inl (by simp [isPlace]))
    · rw [succStep]
      exact sound.pointers.read
    · rw [succStep]
      exact sound.pointers.write
  · refine booked.same ?_ rfl rfl rfl rfl
    intro r
    cases r with
    | queue number => rfl
    | pass other => rfl
    | call other => rfl
    | succ other =>
        simp only [State.job, State.successor]
        rw [show (s.suspend step item).succStep = s.succStep from
          modify_succStep Schedulable.suspend]
        rfl

theorem kept_idle {before : Option (Call Step Item)} {call : Option (Call Step Item)}
    (callStep : CallStep s next thread none call) (found : s.call thread = before)
    (owns : before.bind Call.owns = none) (nextOwns : call.bind Call.owns = none)
    (job : before.bind Call.job = none) (nextJob : call.bind Call.job = none)
    (history : next.history.calls = s.history.calls ∧
      next.history.started = s.history.started ∧ next.history.ended = s.history.ended)
    (inFlight : next.userStepsInFlight = s.userStepsInFlight) (waiters : next.waiters = s.waiters)
    (busy : call ≠ none → s.pass thread = none ∨ (s.current thread).isSome) :
    Kept bypass next := by
  have empty : s.owned (.call thread) = none := by rw [State.owned, found, owns]
  refine ⟨place, ledger, ⟨callStep.idle sound.owned rfl empty nextOwns,
    callStep.pointers sound.pointers (fun _ => Iff.rfl) ?_ ?_ busy⟩,
    callStep.booked booked ?_ history.1 history.2.1 history.2.2 inFlight waiters⟩
  · intro other isAlive
    rcases isAlive with placed | member
    · exact .inl placed
    · exact .inr (callStep.members other (by simp) ▸ member)
  · rintro target number item rfl
    cases nextOwns
  · rw [nextJob, State.job, found, job]

theorem kept_callStays {before call : Call Step Item} (change : Schedulable → Schedulable)
    (found : s.call thread = some before) (owns : before.owns = some step)
    (nextOwns : call.owns = some step) (job : call.job = before.job)
    (notWrite : ∀ target number item, call = .write target number item →
      bypass = true ∧ ∃ current, s.current thread = some current ∧ s.succStep current = none)
    (fits : before.mode.Fits (s.inst step).sched (s.memberships step) →
      call.mode.Fits (change (s.inst step).sched) (s.memberships step)) :
    Kept bypass ((s.modify step change).setCall thread (some call)) := by
  have callStep := callStep_modify s thread step change (some call)
  have here : s.owned (.call thread) = some step := by
    simp only [State.owned, found, Option.bind_some, owns]
  refine ⟨place, ledger, ⟨callStep.stays sound.owned here nextOwns ?_,
    callStep.pointers sound.pointers (fun _ => Iff.rfl) (fun _ => id) ?_
      fun _ => sound.pointers.busy thread (by simp [found])⟩,
    callStep.booked booked ?_ rfl rfl rfl rfl rfl⟩
  · intro fitsBefore
    simp only [State.mode, found, Option.map_some, Option.getD_some] at fitsBefore
    rw [callStep.mode_call]
    change call.mode.Fits ((s.modify step change).inst step).sched _
    rw [modify_sched_self]
    exact fits fitsBefore
  · rintro target number item isWrite
    exact notWrite target number item (Option.some.inj isWrite)
  · simp only [State.job, found, Option.bind_some, job]

theorem kept_callLeaves {before : Call Step Item} {call : Option (Call Step Item)}
    (change : Schedulable → Schedulable) (found : s.call thread = some before)
    (owns : before.owns = some step) (nextOwns : call.bind Call.owns = none)
    (job : before.job = none) (nextJob : call.bind Call.job = none)
    (stands : before.mode.Fits (s.inst step).sched (s.memberships step) →
      s.memberships step = 0 ∨
        (change (s.inst step).sched).nSuspenders = s.memberships step) :
    Kept bypass ((s.modify step change).setCall thread call) := by
  have callStep := callStep_modify s thread step change call
  have here : s.owned (.call thread) = some step := by
    simp only [State.owned, found, Option.bind_some, owns]
  have isPlace := (sound.owned.located _ _).mp here
  refine ⟨_, ledger, ⟨callStep.leaves sound.owned here nextOwns ?_,
    callStep.pointers sound.pointers ?_ ?_ ?_
      fun _ => sound.pointers.busy thread (by simp [found])⟩,
    callStep.booked booked ?_ rfl rfl rfl rfl rfl⟩
  · intro fitsBefore
    simp only [State.mode, found, Option.map_some, Option.getD_some] at fitsBefore
    change _ ∨ ((s.modify step change).inst step).sched.nSuspenders = _
    rw [modify_sched_self]
    exact stands fitsBefore
  · intro other
    by_cases same : other = step
    · subst same
      refine iff_of_false ?_ ?_
      · rintro ⟨at_, isAt⟩
        simp at isAt
      · rintro ⟨at_, isAt⟩
        rw [isPlace] at isAt
        cases isAt
    · simp only [InPass, Function.update_of_ne same]
  · intro other isAlive
    by_cases same : other = step
    · subst same
      exact .inl (by simp [isPlace])
    · simp only [Alive, Function.update_of_ne same] at isAlive
      exact isAlive
  · rintro target number item rfl
    cases nextOwns
  · rw [nextJob, State.job, found, Option.bind_some, job]

omit [DecidableEq Thread] booked in
/-- An instance which still waits for something was created, and can be resumed only
if it is at no place. -/
theorem resume_spec (member : 0 < s.memberships step) : s.created step = true ∧
    ((s.inst step).sched.unsuspend.2 = true →
      place step = none ∧ s.memberships step = 1 ∧ (s.inst step).sched.nSuspenders = 1) := by
  have isCreated : s.created step = true := by
    by_contra notCreated
    have noMember := (sound.owned.fresh step (by simpa using notCreated)).2
    omega
  refine ⟨isCreated, fun last => ?_⟩
  have one : (s.inst step).sched.nSuspenders = 1 := by simpa [Schedulable.unsuspend] using last
  have standing := sound.owned.standing step
  cases isPlace : place step with
  | none =>
      simp only [isPlace, State.Standing] at standing
      exact ⟨rfl, by omega, one⟩
  | some p =>
      exfalso
      simp only [isPlace, State.Standing] at standing
      cases mode : s.mode p <;> simp only [mode, Mode.Fits] at standing <;> omega

theorem kept_resume {item : Item} [DecidableEq Item] (found : s.call thread = some (.resume item))
    (member : (item, some step) ∈ s.waiting) :
    Kept bypass ((s.unsuspend step item).setCall thread
      (if (s.inst step).sched.unsuspend.2 then some (.count step (some item))
        else some (.log step item))) := by
  have sched : ((s.unsuspend step item).inst step).sched = (s.inst step).sched.unsuspend.1 :=
    modify_sched_self fun sched => sched.unsuspend.1
  have oneLess : (s.unsuspend step item).memberships step + 1 = s.memberships step := by
    change (s.waiting.erase (item, some step)).countP _ + 1 = s.waiting.countP _
    rw [(List.perm_cons_erase member).countP_eq]
    simp
  have members : ∀ other, some step ≠ some other →
      (s.unsuspend step item).memberships other = s.memberships other := by
    intro other different
    change (s.waiting.erase (item, some step)).countP _ = s.waiting.countP _
    rw [(List.perm_cons_erase member).countP_eq]
    simp [different]
  have callStep : ∀ call, CallStep s ((s.unsuspend step item).setCall thread call) thread
      (some step) call := fun call =>
    ⟨rfl, rfl, rfl, rfl,
      (callStep_modify s thread step (fun sched => sched.unsuspend.1) call).sched, members,
      (callStep_modify s thread step (fun sched => sched.unsuspend.1) call).succStep⟩
  have isMember : 0 < s.memberships step :=
    List.countP_pos_iff.mpr ⟨_, member, by simp⟩
  obtain ⟨isCreated, resumed⟩ := resume_spec sound isMember
  have empty : s.owned (.call thread) = none := by simp [State.owned, found, Call.owns]
  have busy := sound.pointers.busy thread (by simp [found])
  split
  · rename_i last
    obtain ⟨unplaced, isOne, one⟩ := resumed last
    have step' := callStep (some (.count step (some item)))
    refine ⟨_, ledger, ⟨step'.enters sound.owned empty unplaced isCreated rfl ?_,
      step'.pointers sound.pointers ?_ ?_ (fun _ _ _ impossible => by cases impossible)
        fun _ => busy⟩, step'.booked booked ?_ rfl rfl rfl rfl rfl⟩
    · rw [step'.mode_call]
      change (s.unsuspend step item).memberships step = 0 ∧
        ((s.unsuspend step item).inst step).sched.nSuspenders = 0
      rw [sched]
      refine ⟨by omega, ?_⟩
      simp [Schedulable.unsuspend, one]
    · intro other
      by_cases same : other = step
      · subst same
        refine iff_of_false ?_ ?_
        · rintro ⟨at_, isAt⟩
          simp at isAt
        · rintro ⟨at_, isAt⟩
          rw [unplaced] at isAt
          cases isAt
      · simp only [InPass, Function.update_of_ne same]
    · intro other isAlive
      by_cases same : other = step
      · subst same
        exact .inr isMember
      · simp only [Alive, Function.update_of_ne same] at isAlive
        rcases isAlive with placed | stillMember
        · exact .inl placed
        · refine .inr ?_
          rw [← members other fun equal => same (Option.some.inj equal).symm]
          exact stillMember
    · simp [State.job, found, Call.job]
  · rename_i notLast
    have step' := callStep (some (.log step item))
    refine ⟨place, ledger, ⟨step'.elsewhere sound.owned empty rfl isCreated ?_,
      step'.pointers sound.pointers (fun _ => Iff.rfl) ?_
        (fun _ _ _ impossible => by cases impossible) fun _ => busy⟩,
      step'.booked booked ?_ rfl rfl rfl rfl rfl⟩
    · cases isPlace : place step with
      | none =>
          intro standing
          change (s.unsuspend step item).memberships step = 0 ∨
            ((s.unsuspend step item).inst step).sched.nSuspenders =
              (s.unsuspend step item).memberships step
          right
          rw [sched]
          simp only [State.Standing, Schedulable.unsuspend] at standing ⊢
          omega
      | some p =>
          intro standing
          have elsewhere : p ≠ .call thread := by
            rintro rfl
            exact sound.owned.ne_place empty step isPlace
          simp only [State.Standing] at standing ⊢
          rw [step'.mode_other p elsewhere]
          change (s.mode p).Fits ((s.unsuspend step item).inst step).sched
            ((s.unsuspend step item).memberships step)
          rw [sched]
          cases mode : s.mode p with
          | unguarded =>
              simp only [mode, Mode.Fits] at standing
              omega
          | running =>
              simp only [mode, Mode.Fits, Schedulable.unsuspend] at standing ⊢
              refine ⟨by omega, fun notSuspended => ?_⟩
              have noMember := standing.2 notSuspended
              omega
          | guarded =>
              simp only [mode, Mode.Fits, Schedulable.unsuspend] at standing ⊢
              omega
          | succeeded =>
              simp only [mode, Mode.Fits] at standing
              omega
    · intro other isAlive
      by_cases same : other = step
      · subst same
        exact .inr isMember
      · rcases isAlive with placed | stillMember
        · exact .inl placed
        · refine .inr ?_
          rw [← members other fun equal => same (Option.some.inj equal).symm]
          exact stillMember
    · simp [State.job, found, Call.job]

theorem kept_prepareBegin (found : s.call thread = some (.prepareBegin step)) :
    Kept bypass ((s.modify step fun sched => sched.suspend.resetWasSuspended).setCall thread
      (some (.preparing step))) := by
  refine kept_callStays sound booked _ found rfl rfl rfl (fun _ _ _ impossible => by
    cases impossible) ?_
  rintro ⟨noMember, zero⟩
  refine ⟨?_, fun _ => noMember⟩
  simp [Schedulable.suspend, Schedulable.resetWasSuspended, zero, noMember]

theorem kept_prepareEnd (found : s.call thread = some (.prepareEnd step)) :
    Kept bypass ((s.modify step fun sched => sched.unsuspend.1).setCall thread
      (if (s.inst step).sched.unsuspend.2 then some (.count step none)
        else some (.test step))) := by
  split
  · rename_i last
    refine kept_callStays sound booked _ found rfl rfl rfl (fun _ _ _ impossible => by
      cases impossible) ?_
    intro fits
    have one : (s.inst step).sched.nSuspenders = 1 := by simpa [Schedulable.unsuspend] using last
    simp only [Call.mode, Mode.Fits, Schedulable.unsuspend] at fits ⊢
    omega
  · refine kept_callLeaves sound booked _ found rfl rfl rfl rfl ?_
    intro fits
    simp only [Call.mode, Mode.Fits] at fits
    right
    simp only [Schedulable.unsuspend]
    omega

theorem kept_passOn {all : Bool} (found : s.call thread = some (.preparing step))
    (notSuspended : (s.inst step).sched.wasSuspendedSinceReset = false) :
    Kept bypass ((s.modify step fun sched => sched.unsuspend.1).setCall thread
      (if all then some (.count step none) else some (.delete step))) := by
  split
  · refine kept_callStays sound booked _ found rfl rfl rfl (fun _ _ _ impossible => by
      cases impossible) ?_
    rintro ⟨counter, replayed⟩
    have noMember := replayed notSuspended
    refine ⟨noMember, ?_⟩
    simp [Schedulable.unsuspend, counter, noMember]
  · exact kept_callLeaves sound booked _ found rfl rfl rfl rfl fun fits => .inl (fits.2 notSuspended)

theorem kept_count {after : Option Item} (found : s.call thread = some (.count step after)) :
    Kept bypass ({ s with
      userStepsInFlight := s.userStepsInFlight + 1
      history := { s.history with calls := s.history.calls ++ [step] } }.setCall thread
        (some (.hang step s.history.calls.length after))) := by
  have here : s.owned (.call thread) = some step := by simp [State.owned, found, Call.owns]
  have callStep : CallStep s ({ s with
      userStepsInFlight := s.userStepsInFlight + 1
      history := { s.history with calls := s.history.calls ++ [step] } }.setCall thread
        (some (.hang step s.history.calls.length after))) thread (some step)
      (some (.hang step s.history.calls.length after)) :=
    ⟨rfl, rfl, rfl, rfl, fun _ _ => rfl, fun _ _ => rfl, fun _ => rfl⟩
  refine ⟨place, _, ⟨callStep.stays sound.owned here rfl ?_,
    callStep.pointers sound.pointers (fun _ => Iff.rfl) (fun _ => id)
      (fun _ _ _ impossible => by cases impossible)
      fun _ => sound.pointers.busy thread (by simp [found])⟩,
    booked.count (q := .call thread) ?_ callStep.job_call callStep.job_other rfl rfl rfl rfl rfl
      rfl⟩
  · intro fits
    simp only [State.mode, found, Option.map_some, Option.getD_some] at fits
    rw [callStep.mode_call]
    exact fits
  · simp [State.job, found, Call.job]

theorem kept_skip {after : Option Item} (found : s.call thread = some (.count step after)) :
    Kept bypass (s.setCall thread (afterSchedule step after)) := by
  have kept := kept_callLeaves sound booked id found rfl
    (by cases after <;> rfl : (afterSchedule step after).bind Call.owns = none) rfl
    (by cases after <;> rfl) fun fits => .inl fits.1
  rwa [modify_id] at kept

theorem kept_hang {after : Option Item} (found : s.call thread = some (.hang step ticket after))
    {bypasses : Bool} (isBypass : bypasses = true → bypass = true ∧
      ∃ current, s.current thread = some current ∧ s.succStep current = none) :
    Kept bypass (s.setCall thread (if bypasses then some (.write step ticket after)
      else some (.enqueue step ticket after))) := by
  split
  · rename_i writes
    have kept := kept_callStays sound booked id found rfl
      (rfl : (Call.write step ticket after).owns = some step) rfl
      (fun _ _ _ _ => isBypass writes) id
    rwa [modify_id] at kept
  · have kept := kept_callStays sound booked id found rfl
      (rfl : (Call.enqueue step ticket after).owns = some step) rfl
      (fun _ _ _ impossible => by cases impossible) id
    rwa [modify_id] at kept

theorem kept_enqueue {after : Option Item}
    (found : s.call thread = some (.enqueue step ticket after)) :
    Kept bypass ({ s with queue := Function.update s.queue ticket (some step) }.setCall thread
      (afterSchedule step after)) := by
  have isJob : s.job (.call thread) = some (step, ticket) := by simp [State.job, found, Call.job]
  have free : s.queue ticket = none := by
    cases isQueued : s.queue ticket with
    | none => rfl
    | some other =>
        have queued : s.job (.queue ticket) = some (other, ticket) := by
          simp [State.job, isQueued]
        cases booked.located.unique (Booked.ticketAt_of_job isJob) (Booked.ticketAt_of_job queued)
  have gone : (afterSchedule step after).bind Call.job = none := by
    cases after <;> rfl
  refine ⟨_, _, sound.enqueue found free, booked.move (p := .call thread) (q := .queue ticket)
    isJob (by simp) ?_ ?_ ?_ ?_ rfl rfl rfl rfl rfl⟩
  · simp [State.job, free]
  · simp [State.job, State.setCall]
  · simp [State.job, State.setCall, gone]
  · intro r notCall notQueue
    cases r with
    | pass other => rfl
    | succ other => rfl
    | queue number =>
        have different : number ≠ ticket := fun same => notQueue (congrArg Place.queue same)
        simp [State.job, State.setCall, different]
    | call other =>
        have different : other ≠ thread := fun same => notCall (congrArg Place.call same)
        simp [State.job, State.setCall, different]

end Kept

theorem kept_write (sound : Sound true s place) (booked : Booked s ledger) {after : Option Item}
    {current : Step} (found : s.call thread = some (.write step ticket after))
    (isCurrent : s.current thread = some current) :
    Kept true ((s.setSucc current (some (step, ticket))).setCall thread
      (afterSchedule step after)) := by
  have written := sound.write found isCurrent
  have isJob : s.job (.call thread) = some (step, ticket) := by simp [State.job, found, Call.job]
  have here : s.owned (.call thread) = some step := by simp [State.owned, found, Call.owns]
  have inPass := owned_of_current isCurrent
  have different : step ≠ current := by
    rintro rfl
    cases sound.owned.located.unique here inPass
  obtain ⟨-, other, isOther, unhung⟩ := sound.pointers.write thread step ticket after found
  rw [isCurrent] at isOther
  cases isOther
  obtain ⟨number, isPass⟩ := pass_of_current isCurrent
  have gone : (afterSchedule step after).bind Call.job = none := by
    cases after <;> rfl
  refine ⟨_, _, written, booked.move (p := .call thread) (q := .succ thread) isJob (by simp) ?_ ?_
    ?_ ?_ rfl rfl rfl rfl rfl⟩
  · simp [State.job, State.successor, isPass, Pass.successor, Phase.newS, unhung]
  · simp [State.job, State.setCall, State.setSucc, State.successor, isPass, Pass.successor,
      Phase.newS, State.succStep, different]
  · simp [State.job, State.setCall, gone]
  · intro r notCall notSucc
    cases r with
    | queue number => rfl
    | pass other => rfl
    | succ other =>
        have elsewhere : other ≠ thread := fun same => notSucc (congrArg Place.succ same)
        exact sound.owned.successor_setSucc_current inPass elsewhere _
    | call other =>
        have elsewhere : other ≠ thread := fun same => notCall (congrArg Place.call same)
        simp [State.job, State.setCall, State.setSucc, elsewhere]

section Run

variable [DecidableEq Item] (sound : Sound bypass s place) (booked : Booked s ledger)

include sound booked

omit [DecidableEq Item] in
theorem kept_create (free : s.Free thread) (absent : s.created step = false) :
    Kept bypass ({ s with
      inst := Function.update s.inst step { sched := .create, succStep := none }
      created := Function.update s.created step true }.setCall thread
        (some (.prepareBegin step))) := by
  have noCall : s.call thread = none := by simpa using free.1
  have unplaced := (sound.owned.fresh step absent).1
  refine ⟨_, ledger, sound.create free absent, booked.same ?_ rfl rfl rfl rfl⟩
  intro r
  cases r with
  | queue number => rfl
  | pass other => rfl
  | call other =>
      by_cases same : other = thread
      · subst same
        simp [State.job, State.setCall, noCall, Call.job]
      · simp [State.job, State.setCall, same]
  | succ other => exact sound.owned.successor_create unplaced _ other

omit [DecidableEq Item] [DecidableEq Thread] in
theorem kept_frame (inst : next.inst = s.inst) (created : next.created = s.created)
    (queue : next.queue = s.queue) (pass : next.pass = s.pass) (call : next.call = s.call)
    (members : ∀ step, next.memberships step = s.memberships step)
    (calls : next.history.calls = s.history.calls)
    (started : next.history.started = s.history.started)
    (ended : next.history.ended = s.history.ended)
    (inFlight : next.userStepsInFlight - next.waiters = s.userStepsInFlight - s.waiters) :
    Kept bypass next := by
  have succStep : next.succStep = s.succStep := by
    funext step
    rw [State.succStep, State.succStep, inst]
  have current : next.current = s.current := by
    funext thread
    rw [State.current, State.current, pass]
  have inWindow : next.InWindow = s.InWindow := by
    funext step
    simp only [State.InWindow, State.windowAt, pass]
  have alive : ∀ step, Alive next place step → Alive s place step := by
    intro step isAlive
    rcases isAlive with placed | member
    · exact .inl placed
    · exact .inr (members step ▸ member)
  have jobs : ∀ p, next.job p = s.job p := by
    intro p
    cases p <;> simp only [State.job, State.successor, queue, pass, call, succStep]
  refine ⟨place, ledger, ⟨sound.owned.same ?_ created ?_ members ?_, ?_⟩,
    booked.same jobs calls started ended inFlight⟩
  · intro p
    cases p <;> simp only [State.owned, State.successor, queue, pass, call, succStep]
  · intro step
    rw [inst]
  · intro _ p _
    cases p <;> simp only [State.mode, pass, call]
  · constructor
    · rw [succStep]
      exact sound.pointers.direct
    · rw [pass]
      exact sound.pointers.directNewS
    · rw [pass]
      exact sound.pointers.unmarked
    · rw [inWindow]
      exact sound.pointers.window
    · rw [succStep, inWindow]
      exact fun step isAlive => sound.pointers.unhung step (alive step isAlive)
    · rw [pass, succStep]
      exact sound.pointers.read
    · rw [call, current, succStep]
      exact sound.pointers.write
    · rw [call, pass, current]
      exact sound.pointers.busy

theorem kept_get {item : Item} (performed : perform bypass s (.get thread item) = some next) :
    Kept bypass next := by
  simp only [perform, Option.ite_none_right_eq_some] at performed
  obtain ⟨-, isNext⟩ := performed
  cases isCurrent : s.current thread with
  | some step =>
      simp only [isCurrent, Option.some.injEq] at isNext
      subst isNext
      obtain ⟨ticket, isPass⟩ := pass_of_current isCurrent
      exact kept_suspend sound booked (owned_of_current isCurrent)
        (by simp [State.mode, isPass, Phase.mode]) item
  | none =>
      simp only [isCurrent, Option.some.injEq] at isNext
      subst isNext
      refine kept_frame sound booked rfl rfl rfl rfl rfl ?_ rfl rfl rfl rfl
      intro step
      simp [State.memberships]

theorem kept_advanceCall {call : Call Step Item} (found : s.call thread = some call)
    (advanced : s.advanceCall bypass thread call = some next) : Kept bypass next := by
  have busy := sound.pointers.busy thread (by simp [found])
  have idles : ∀ after : Option (Call Step Item), call.owns = none → call.job = none →
      after.bind Call.owns = none → after.bind Call.job = none →
      Kept bypass (s.setCall thread after) := by
    intro after owns job nextOwns nextJob
    exact kept_idle sound booked (callStep_setCall s thread after) found owns nextOwns job nextJob
      ⟨rfl, rfl, rfl⟩ rfl rfl fun _ => busy
  cases call with
  | resume item =>
      simp only [State.advanceCall] at advanced
      split at advanced
      · cases advanced
        exact idles none rfl rfl rfl rfl
      · rename_i other isFound
        cases advanced
        have isItem : other = item := by simpa using List.find?_some isFound
        subst isItem
        have member := List.mem_of_find?_eq_some isFound
        refine kept_frame sound booked rfl rfl rfl rfl rfl ?_ rfl rfl rfl rfl
        intro step
        simp only [State.memberships]
        rw [(List.perm_cons_erase member).countP_eq]
        simp
      · rename_i other step isFound
        cases advanced
        have isItem : other = item := by simpa using List.find?_some isFound
        subst isItem
        exact kept_resume sound booked found (List.mem_of_find?_eq_some isFound)
  | log step item =>
      cases advanced
      exact idles (some (.resume item)) rfl rfl rfl rfl
  | prepareBegin step =>
      cases advanced
      exact kept_prepareBegin sound booked found
  | preparing step => cases advanced
  | prepareEnd step =>
      cases advanced
      exact kept_prepareEnd sound booked found
  | test step =>
      simp only [State.advanceCall, Option.some.injEq] at advanced
      subst advanced
      split
      · exact idles (some (.delete step)) rfl rfl rfl rfl
      · exact idles none rfl rfl rfl rfl
  | delete step =>
      cases advanced
      have callStep : CallStep s ((s.delete step).setCall thread none) thread none none :=
        ⟨rfl, rfl, rfl, rfl, fun _ _ => rfl, fun _ _ => rfl, fun _ => rfl⟩
      exact kept_idle sound booked callStep found rfl rfl rfl rfl ⟨rfl, rfl, rfl⟩ rfl rfl
        fun _ => busy
  | count step after =>
      simp only [State.advanceCall] at advanced
      split at advanced
      · cases advanced
        exact kept_skip sound booked found
      · cases advanced
        exact kept_count sound booked found
  | hang step ticket after =>
      cases advanced
      refine kept_hang sound booked found ?_
      intro bypasses
      obtain ⟨isBypass, hangs⟩ := Bool.and_eq_true_iff.mp bypasses
      obtain ⟨current, isCurrent, free⟩ := (Option.any_eq_true _ _).mp hangs
      have unhung := (Bool.and_eq_true_iff.mp free).2
      exact ⟨isBypass, current, isCurrent, Option.isNone_iff_eq_none.mp unhung⟩
  | enqueue step ticket after =>
      cases advanced
      exact kept_enqueue sound booked found
  | write step ticket after =>
      obtain ⟨isBypass, current, isCurrent, -⟩ := sound.pointers.write thread step ticket after found
      subst isBypass
      simp only [State.advanceCall, isCurrent, Option.some.injEq] at advanced
      subst advanced
      exact kept_write sound booked found isCurrent

omit [DecidableEq Item] in
theorem kept_advancePass {pass : Pass Step} (found : s.pass thread = some pass)
    (allowed : NoPassInWindow bypass s (.advancePass thread))
    (advanced : s.advancePass bypass thread pass = some next) : Kept bypass next := by
  obtain ⟨step, ticket, phase⟩ := pass
  cases phase with
  | begin =>
      cases advanced
      exact kept_begin sound booked found
  | executing => cases advanced
  | returned success =>
      cases advanced
      exact kept_returned sound booked found
  | read success newS =>
      cases success with
      | true =>
          cases advanced
          exact kept_success sound booked found
      | false =>
          cases advanced
          exact kept_unsuspend sound booked found
  | delete newS =>
      cases advanced
      exact kept_delete sound booked found
  | again newS =>
      cases advanced
      exact kept_again sound booked found
  | failed newS =>
      cases advanced
      exact kept_failed sound booked found
  | clear newS =>
      cases advanced
      exact kept_clear sound booked found
  | mark newS => exact kept_mark sound booked found advanced
  | next newS =>
      refine kept_next sound booked found ?_ advanced
      rintro isBypass succ rfl different
      refine allowed isBypass succ.1 ?_
      simp [State.starts, found, different]

theorem kept_perform {action : Action Step Item Thread} (allowed : NoPassInWindow bypass s action)
    (performed : perform bypass s action = some next) : Kept bypass next := by
  cases action with
  | pop thread ticket =>
      simp only [perform, Option.ite_none_right_eq_some, Option.map_eq_some_iff,
        Option.isNone_iff_eq_none] at performed
      obtain ⟨⟨noPass, noCall⟩, step, queued, rfl⟩ := performed
      exact kept_pop sound booked noPass noCall queued fun isBypass => allowed isBypass step queued
  | advancePass thread =>
      obtain ⟨pass, found, advanced⟩ := Option.bind_eq_some_iff.mp performed
      exact kept_advancePass sound booked found allowed advanced
  | get thread item => exact kept_get sound booked performed
  | put thread item =>
      simp only [perform, Option.ite_none_right_eq_some, Option.some.injEq] at performed
      obtain ⟨⟨free, -⟩, rfl⟩ := performed
      have noCall : s.call thread = none := by simpa using free.1
      have callStep : CallStep s
          ({ s with present := Function.update s.present item true }.setCall thread
            (some (.resume item))) thread none (some (.resume item)) :=
        ⟨rfl, rfl, rfl, rfl, fun _ _ => rfl, fun _ _ => rfl, fun _ => rfl⟩
      refine kept_idle sound booked callStep noCall rfl rfl rfl rfl ⟨rfl, rfl, rfl⟩ rfl rfl
        fun _ => ?_
      rcases free.2 with noPass | running
      · exact .inl (Option.isNone_iff_eq_none.mp noPass)
      · exact .inr running
  | create thread step =>
      simp only [perform, Option.ite_none_right_eq_some, Option.some.injEq] at performed
      obtain ⟨⟨free, absent⟩, rfl⟩ := performed
      exact kept_create sound booked free absent
  | return_ thread outcome =>
      simp only [perform, Option.ite_none_right_eq_some, Option.isNone_iff_eq_none] at performed
      obtain ⟨noCall, returned⟩ := performed
      split at returned
      · rename_i step ticket found
        exact kept_return sound booked found noCall returned
      · cases returned
  | advanceCall thread =>
      obtain ⟨call, found, advanced⟩ := Option.bind_eq_some_iff.mp performed
      exact kept_advanceCall sound booked found advanced
  | depends thread item =>
      simp only [perform] at performed
      split at performed
      · rename_i step found
        simp only [Option.ite_none_left_eq_some] at performed
        obtain ⟨-, isNext⟩ := performed
        cases isNext
        exact kept_suspend sound booked (p := .call thread)
          (by simp [State.owned, found, Call.owns]) (by simp [State.mode, found, Call.mode]) item
      · cases performed
  | passOn thread all =>
      simp only [perform] at performed
      split at performed
      · rename_i step found
        simp only [Option.ite_none_left_eq_some] at performed
        obtain ⟨notSuspended, isNext⟩ := performed
        cases isNext
        exact kept_passOn sound booked found (by simpa using notSuspended)
      · cases performed
  | prepared thread =>
      simp only [perform] at performed
      split at performed
      · rename_i step found
        cases performed
        exact kept_callStays sound booked _ found rfl rfl rfl (fun _ _ _ impossible => by
          cases impossible) fun fits => fits.1
      · cases performed
  | wait =>
      cases performed
      refine kept_frame sound booked rfl rfl rfl rfl rfl (fun _ => rfl) rfl rfl rfl ?_
      push_cast
      ring
  | unwait =>
      simp only [perform, Option.ite_none_right_eq_some, Option.some.injEq] at performed
      obtain ⟨positive, rfl⟩ := performed
      refine kept_frame sound booked rfl rfl rfl rfl rfl (fun _ => rfl) rfl rfl rfl ?_
      simp only
      omega

omit sound booked in
theorem kept_step {action : Action Step Item Thread} (kept : Kept bypass s)
    (allowed : NoPassInWindow bypass s action)
    (stepped : Execute.step bypass s action = some next) : Kept bypass next := by
  obtain ⟨place, ledger, sound, booked⟩ := kept
  obtain ⟨performed, isPerformed, rfl⟩ := Option.map_eq_some_iff.mp stepped
  obtain ⟨nextPlace, nextLedger, nextSound, nextBooked⟩ :=
    kept_perform sound booked allowed isPerformed
  exact kept_frame nextSound nextBooked rfl rfl rfl rfl rfl (fun _ => rfl) rfl rfl rfl rfl

end Run

theorem kept_start (Step Item Thread : Type u) [DecidableEq Step] [DecidableEq Thread]
    (bypass : Bool) : Kept bypass (start Step Item Thread) := by
  have nowhere : ∀ p, (start Step Item Thread).owned p = none := by
    intro p
    cases p <;> rfl
  have noJob : ∀ p, (start Step Item Thread).job p = none := by
    intro p
    cases p <;> rfl
  refine ⟨fun _ => none, fun _ => none, ⟨⟨?_, fun _ => .inl rfl, fun _ _ => ⟨rfl, rfl⟩⟩, ?_⟩, ?_⟩
  · intro p step
    simp [nowhere]
  · refine ⟨fun _ _ => rfl, ?_, ?_, ?_, ?_, ?_, ?_, ?_⟩
    · exact fun _ _ _ _ impossible => by cases impossible
    · exact fun _ _ _ impossible => by cases impossible
    · rintro _ _ ⟨_, impossible⟩
      cases impossible
    · exact fun _ _ _ _ _ impossible => by cases impossible
    · exact fun _ _ _ impossible => by cases impossible
    · exact fun _ _ _ _ impossible => by cases impossible
    · exact fun _ _ => .inl rfl
  · refine ⟨?_, ?_, ?_, ?_, fun _ _ => ⟨rfl, rfl⟩, ?_⟩
    · intro p ticket
      simp [State.ticketAt, noJob]
    · intro p step ticket isJob
      rw [noJob] at isJob
      cases isJob
    · exact fun _ _ impossible => by cases impossible
    · exact fun _ inside => absurd inside (Nat.not_lt_zero _)
    · rfl

theorem kept_of_reached [DecidableEq Item]
    (reached : Reached (system bypass) (NoPassInWindow bypass) s) : Kept bypass s := by
  refine reached.invariant (Kept bypass) ?_ ?_
  · rintro _ rfl
    exact kept_start Step Item Thread bypass
  · intro state action next _ kept allowed stepped
    exact kept_step kept allowed stepped

end CnC.Execute
