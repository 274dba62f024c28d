import CnC.Library.Places
import CnC.Scheduler.Execute

/-!
# Who may schedule or execute a step instance

A step instance is at one place: in the queue, in a pass, hung on the instance of a
pass, or in a call which prepares or schedules it.  If it is at no place, then it is
suspended, or it will not be used again.  Its counter of suspends tells how many
suspend groups hold it, and whether its place guards it.
-/

namespace CnC.Execute

open Transition CnC.Scheduler Places

universe u

variable {Step Item Thread : Type u}

inductive Place (Thread : Type u) where
  | queue (ticket : Nat)
  | pass (thread : Thread)
  | succ (thread : Thread)
  | call (thread : Thread)
  deriving DecidableEq

/-- What the place of an instance says about its counter: there is no extra suspend
and it is in no suspend group; it is guarded, and is in a suspend group only if it
was suspended since the guard was set; it is guarded; it is guarded and in no
suspend group. -/
inductive Mode where
  | unguarded
  | running
  | guarded
  | succeeded
  deriving DecidableEq

def Mode.Fits (sched : Schedulable) (memberships : Nat) : Mode → Prop
  | .unguarded => memberships = 0 ∧ sched.nSuspenders = 0
  | .running => sched.nSuspenders = memberships + 1 ∧
      (sched.wasSuspendedSinceReset = false → memberships = 0)
  | .guarded => sched.nSuspenders = memberships + 1
  | .succeeded => memberships = 0 ∧ sched.nSuspenders = 1

/-- A pass has given its instance away when its unsuspend was not the last, or when
the instance is deleted. -/
def Phase.owns : Phase Step → Bool
  | .begin | .executing | .returned _ | .read _ _ | .delete _ | .again _ => true
  | .failed _ | .clear _ | .mark _ | .next _ => false

def Phase.mode : Phase Step → Mode
  | .executing => .running
  | .returned true | .read true _ | .delete _ => .succeeded
  | .returned false | .read false _ => .guarded
  | .begin | .again _ | .failed _ | .clear _ | .mark _ | .next _ => .unguarded

def Phase.newS : Phase Step → Option (Option (Step × Nat))
  | .begin | .executing | .returned _ => none
  | .read _ newS | .delete newS | .again newS | .failed newS | .clear newS | .mark newS
  | .next newS => some newS

def Call.owns : Call Step Item → Option Step
  | .prepareBegin step | .preparing step | .prepareEnd step | .count step _ | .hang step _ _
  | .enqueue step _ _ | .write step _ _ => some step
  | .resume _ | .log _ _ | .test _ | .delete _ => none

def Call.mode : Call Step Item → Mode
  | .preparing _ => .running
  | .prepareEnd _ => .guarded
  | _ => .unguarded

def State.memberships [DecidableEq Step] (s : State Step Item Thread) (step : Step) : Nat :=
  s.waiting.countP fun entry => entry.2 = some step

def State.mode (s : State Step Item Thread) : Place Thread → Mode
  | .queue _ => .unguarded
  | .succ _ => .unguarded
  | .pass thread => ((s.pass thread).map fun pass => pass.phase.mode).getD .unguarded
  | .call thread => ((s.call thread).map Call.mode).getD .unguarded

def State.succStep (s : State Step Item Thread) (step : Step) : Option (Step × Nat) :=
  (s.inst step).succStep

section Steps

variable [DecidableEq Step]

def Pass.successor (pass : Pass Step) (succStep : Step → Option (Step × Nat)) :
    Option (Step × Nat) :=
  (pass.phase.newS.getD (succStep pass.step)).filter fun succ => succ.1 ≠ pass.step

def State.successor (s : State Step Item Thread) (thread : Thread) : Option (Step × Nat) :=
  (s.pass thread).bind fun pass => pass.successor s.succStep

def State.owned (s : State Step Item Thread) : Place Thread → Option Step
  | .queue ticket => s.queue ticket
  | .pass thread => (s.pass thread).bind fun pass => if pass.phase.owns then some pass.step else none
  | .succ thread => (s.successor thread).map Prod.fst
  | .call thread => (s.call thread).bind Call.owns

def State.Standing (s : State Step Item Thread) (step : Step) : Option (Place Thread) → Prop
  | some place => (s.mode place).Fits (s.inst step).sched (s.memberships step)
  | none => s.memberships step = 0 ∨ (s.inst step).sched.nSuspenders = s.memberships step

structure Owned (s : State Step Item Thread) (place : Step → Option (Place Thread)) : Prop where
  located : Located s.owned place
  standing : ∀ step, s.Standing step (place step)
  fresh : ∀ step, s.created step = false → place step = none ∧ s.memberships step = 0

variable {s next : State Step Item Thread} {place : Step → Option (Place Thread)}

namespace Owned

theorem at_ (owned : Owned s place) {p : Place Thread} {step : Step} (here : s.owned p = some step) :
    (s.mode p).Fits (s.inst step).sched (s.memberships step) := by
  have standing := owned.standing step
  rwa [(owned.located p step).mp here] at standing

theorem created (owned : Owned s place) {p : Place Thread} {step : Step}
    (here : s.owned p = some step) : s.created step = true := by
  by_contra notCreated
  have absent := (owned.fresh step (by simpa using notCreated)).1
  exact owned.located.empty_of_unplaced absent p here

theorem eq_of_place (owned : Owned s place) {p : Place Thread} {step other : Step}
    (here : s.owned p = some step) (isOther : place other = some p) : other = step := by
  have there := (owned.located _ _).mpr isOther
  rw [here] at there
  exact (Option.some.inj there).symm

theorem ne_place (owned : Owned s place) {p : Place Thread} (empty : s.owned p = none)
    (other : Step) : place other ≠ some p := by
  intro isOther
  have there := (owned.located _ _).mpr isOther
  rw [empty] at there
  cases there

theorem change (owned : Owned s place) (step : Step) {p : Option (Place Thread)}
    (located : Located next.owned (Function.update place step p))
    (created : next.created = s.created) (isCreated : s.created step = true)
    (sched : ∀ other, other ≠ step → (next.inst other).sched = (s.inst other).sched)
    (members : ∀ other, other ≠ step → next.memberships other = s.memberships other)
    (mode : ∀ other q, other ≠ step → place other = some q → next.mode q = s.mode q)
    (standing : next.Standing step p) : Owned next (Function.update place step p) where
  located := located
  standing other := by
    by_cases same : other = step
    · subst same
      rw [Function.update_self]
      exact standing
    · rw [Function.update_of_ne same]
      have before := owned.standing other
      cases isPlace : place other with
      | none =>
          rw [isPlace] at before
          simpa only [State.Standing, sched other same, members other same] using before
      | some q =>
          rw [isPlace] at before
          simpa only [State.Standing, sched other same, members other same,
            mode other q same isPlace] using before
  fresh other notCreated := by
    rw [created] at notCreated
    have different : other ≠ step := by
      rintro rfl
      rw [isCreated] at notCreated
      cases notCreated
    rw [Function.update_of_ne different, members other different]
    exact owned.fresh other notCreated

theorem same (owned : Owned s place) (holds : ∀ p, next.owned p = s.owned p)
    (created : next.created = s.created)
    (sched : ∀ step, (next.inst step).sched = (s.inst step).sched)
    (members : ∀ step, next.memberships step = s.memberships step)
    (mode : ∀ step p, place step = some p → next.mode p = s.mode p) : Owned next place where
  located := owned.located.congr holds
  standing step := by
    have before := owned.standing step
    cases isPlace : place step with
    | none =>
        rw [isPlace] at before
        simpa only [State.Standing, sched step, members step] using before
    | some q =>
        rw [isPlace] at before
        simpa only [State.Standing, sched step, members step, mode step q isPlace] using before
  fresh step notCreated := by
    rw [created] at notCreated
    rw [members step]
    exact owned.fresh step notCreated

end Owned

variable [DecidableEq Thread] {thread : Thread} {step : Step} {ticket : Nat}
  {phase nextPhase : Phase Step}

structure PassStep (s next : State Step Item Thread) (thread : Thread) (step : Step)
    (pass : Option (Pass Step)) : Prop where
  queue : next.queue = s.queue
  call : next.call = s.call
  pass : next.pass = Function.update s.pass thread pass
  created : next.created = s.created
  sched : ∀ other, other ≠ step → (next.inst other).sched = (s.inst other).sched
  members : ∀ other, other ≠ step → next.memberships other = s.memberships other
  succ : ∀ other, other ≠ thread → next.successor other = s.successor other

theorem successor_congr {pass : Option (Pass Step)}
    (changed : next.pass = Function.update s.pass thread pass)
    (succStep : ∀ step, next.succStep step = s.succStep step) (other : Thread)
    (different : other ≠ thread) : next.successor other = s.successor other := by
  have same : next.succStep = s.succStep := funext succStep
  rw [State.successor, State.successor, changed, Function.update_of_ne different, same]

namespace PassStep

variable {pass : Option (Pass Step)} (passStep : PassStep s next thread step pass)

include passStep

theorem owned_other (r : Place Thread) (notPass : r ≠ .pass thread) (notSucc : r ≠ .succ thread) :
    next.owned r = s.owned r := by
  cases r with
  | queue ticket => exact congrFun passStep.queue ticket
  | call other => simp only [State.owned, passStep.call]
  | pass other =>
      have different : other ≠ thread := fun same => notPass (congrArg Place.pass same)
      simp only [State.owned, passStep.pass, Function.update_of_ne different]
  | succ other =>
      have different : other ≠ thread := fun same => notSucc (congrArg Place.succ same)
      simp only [State.owned, passStep.succ other different]

theorem mode_other (r : Place Thread) (notPass : r ≠ .pass thread) : next.mode r = s.mode r := by
  cases r with
  | queue ticket => rfl
  | succ other => rfl
  | call other => simp only [State.mode, passStep.call]
  | pass other =>
      have different : other ≠ thread := fun same => notPass (congrArg Place.pass same)
      simp only [State.mode, passStep.pass, Function.update_of_ne different]

theorem stays (owned : Owned s place) (found : s.pass thread = some ⟨step, ticket, phase⟩)
    (goes : pass = some ⟨step, ticket, nextPhase⟩) (owns : phase.owns = true)
    (nextOwns : nextPhase.owns = true) (successor : next.successor thread = s.successor thread)
    (fits : phase.mode.Fits (s.inst step).sched (s.memberships step) →
      nextPhase.mode.Fits (next.inst step).sched (next.memberships step)) : Owned next place := by
  have here : s.owned (.pass thread) = some step := by simp [State.owned, found, owns]
  have isPlace := (owned.located _ _).mp here
  have located : Located next.owned place := by
    refine owned.located.congr fun r => ?_
    by_cases isPass : r = .pass thread
    · subst isPass
      simp [State.owned, passStep.pass, goes, found, owns, nextOwns]
    · by_cases isSucc : r = .succ thread
      · subst isSucc
        simp only [State.owned, successor]
      · exact passStep.owned_other r isPass isSucc
  have unmoved : Function.update place step (some (.pass thread)) = place := by
    rw [← isPlace, Function.update_eq_self]
  rw [← unmoved] at located
  have changed := owned.change step located passStep.created (owned.created here) passStep.sched
    passStep.members ?_ ?_
  · rwa [unmoved] at changed
  · intro other q different isOther
    refine passStep.mode_other q ?_
    rintro rfl
    exact different (owned.eq_of_place here isOther)
  · have before := owned.at_ here
    simp only [State.mode, found, Option.map_some, Option.getD_some] at before
    simpa only [State.Standing, State.mode, passStep.pass, goes, Function.update_self,
      Option.map_some, Option.getD_some] using fits before

theorem leaves (owned : Owned s place) (found : s.pass thread = some ⟨step, ticket, phase⟩)
    (goes : pass = some ⟨step, ticket, nextPhase⟩) (owns : phase.owns = true)
    (nextOwns : nextPhase.owns = false) (successor : next.successor thread = s.successor thread)
    (stands : phase.mode.Fits (s.inst step).sched (s.memberships step) →
      next.memberships step = 0 ∨ (next.inst step).sched.nSuspenders = next.memberships step) :
    Owned next (Function.update place step none) := by
  have here : s.owned (.pass thread) = some step := by simp [State.owned, found, owns]
  refine owned.change step ?_ passStep.created (owned.created here) passStep.sched
    passStep.members ?_ ?_
  · refine owned.located.leave here ?_ fun r notPass => ?_
    · simp [State.owned, passStep.pass, goes, nextOwns]
    · by_cases isSucc : r = .succ thread
      · subst isSucc
        simp only [State.owned, successor]
      · exact passStep.owned_other r notPass isSucc
  · intro other q different isOther
    refine passStep.mode_other q ?_
    rintro rfl
    exact different (owned.eq_of_place here isOther)
  · have before := owned.at_ here
    simp only [State.mode, found, Option.map_some, Option.getD_some] at before
    exact stands before

theorem ends (owned : Owned s place) {holder : Step}
    (found : s.pass thread = some ⟨holder, ticket, phase⟩)
    (owns : phase.owns = false) (unchanged : ∀ step, (next.inst step).sched = (s.inst step).sched)
    (members : ∀ step, next.memberships step = s.memberships step)
    (nextOwns : ∀ next, pass = some next → next.phase.owns = false)
    (successor : next.successor thread = s.successor thread) : Owned next place := by
  have nothing : s.owned (.pass thread) = none := by simp [State.owned, found, owns]
  have stillNothing : next.owned (.pass thread) = none := by
    cases isPass : pass with
    | none => simp [State.owned, passStep.pass, isPass]
    | some after => simp [State.owned, passStep.pass, isPass, nextOwns after isPass]
  refine owned.same ?_ passStep.created unchanged members ?_
  · intro r
    by_cases isPass : r = .pass thread
    · rw [isPass, nothing, stillNothing]
    · by_cases isSucc : r = .succ thread
      · subst isSucc
        simp only [State.owned, successor]
      · exact passStep.owned_other r isPass isSucc
  · intro other q isOther
    refine passStep.mode_other q ?_
    rintro rfl
    exact owned.ne_place nothing other isOther

end PassStep

/-- A step which changes one call and the counter of at most one instance. -/
structure CallStep (s next : State Step Item Thread) (thread : Thread) (affected : Option Step)
    (call : Option (Call Step Item)) : Prop where
  queue : next.queue = s.queue
  pass : next.pass = s.pass
  call : next.call = Function.update s.call thread call
  created : next.created = s.created
  sched : ∀ other, affected ≠ some other → (next.inst other).sched = (s.inst other).sched
  members : ∀ other, affected ≠ some other → next.memberships other = s.memberships other
  succStep : ∀ other, next.succStep other = s.succStep other

namespace CallStep

variable {call : Option (Call Step Item)} {affected : Option Step}

section Any

variable (callStep : CallStep s next thread affected call)

include callStep

theorem owned_other (r : Place Thread) (notCall : r ≠ .call thread) :
    next.owned r = s.owned r := by
  cases r with
  | queue ticket => exact congrFun callStep.queue ticket
  | pass other => simp only [State.owned, callStep.pass]
  | succ other =>
      have same : next.succStep = s.succStep := funext callStep.succStep
      simp only [State.owned, State.successor, callStep.pass, same]
  | call other =>
      have different : other ≠ thread := fun same => notCall (congrArg Place.call same)
      simp only [State.owned, callStep.call, Function.update_of_ne different]

theorem mode_other (r : Place Thread) (notCall : r ≠ .call thread) : next.mode r = s.mode r := by
  cases r with
  | queue ticket => rfl
  | succ other => rfl
  | pass other => simp only [State.mode, callStep.pass]
  | call other =>
      have different : other ≠ thread := fun same => notCall (congrArg Place.call same)
      simp only [State.mode, callStep.call, Function.update_of_ne different]

theorem owned_call : next.owned (.call thread) = call.bind Call.owns := by
  simp only [State.owned, callStep.call, Function.update_self]

theorem mode_call : next.mode (.call thread) = (call.map Call.mode).getD .unguarded := by
  simp only [State.mode, callStep.call, Function.update_self]

theorem idle (owned : Owned s place) (none_ : affected = none)
    (empty : s.owned (.call thread) = none) (stillEmpty : call.bind Call.owns = none) :
    Owned next place := by
  refine owned.same ?_ callStep.created (fun other => callStep.sched other (by simp [none_]))
    (fun other => callStep.members other (by simp [none_])) ?_
  · intro r
    by_cases isCall : r = .call thread
    · rw [isCall, callStep.owned_call, stillEmpty, empty]
    · exact callStep.owned_other r isCall
  · intro other q isOther
    refine callStep.mode_other q ?_
    rintro rfl
    exact owned.ne_place empty other isOther

end Any

section One

variable (callStep : CallStep s next thread (some step) call)

include callStep

theorem sched_other (other : Step) (different : other ≠ step) :
    (next.inst other).sched = (s.inst other).sched :=
  callStep.sched other fun same => different (Option.some.inj same).symm

theorem members_other (other : Step) (different : other ≠ step) :
    next.memberships other = s.memberships other :=
  callStep.members other fun same => different (Option.some.inj same).symm

theorem stays (owned : Owned s place) (found : s.owned (.call thread) = some step)
    (owns : call.bind Call.owns = some step)
    (fits : (s.mode (.call thread)).Fits (s.inst step).sched (s.memberships step) →
      (next.mode (.call thread)).Fits (next.inst step).sched (next.memberships step)) :
    Owned next place := by
  have isPlace := (owned.located _ _).mp found
  have located : Located next.owned place := by
    refine owned.located.congr fun r => ?_
    by_cases isCall : r = .call thread
    · rw [isCall, callStep.owned_call, owns, found]
    · exact callStep.owned_other r isCall
  have unmoved : Function.update place step (some (.call thread)) = place := by
    rw [← isPlace, Function.update_eq_self]
  rw [← unmoved] at located
  have changed := owned.change step located callStep.created (owned.created found) callStep.sched_other
    callStep.members_other ?_ ?_
  · rwa [unmoved] at changed
  · intro other q different isOther
    refine callStep.mode_other q ?_
    rintro rfl
    exact different (owned.eq_of_place found isOther)
  · exact fits (owned.at_ found)

theorem leaves (owned : Owned s place) (found : s.owned (.call thread) = some step)
    (gone : call.bind Call.owns = none)
    (stands : (s.mode (.call thread)).Fits (s.inst step).sched (s.memberships step) →
      next.memberships step = 0 ∨ (next.inst step).sched.nSuspenders = next.memberships step) :
    Owned next (Function.update place step none) := by
  refine owned.change step ?_ callStep.created (owned.created found) callStep.sched_other
    callStep.members_other ?_ (stands (owned.at_ found))
  · refine owned.located.leave found ?_ callStep.owned_other
    rw [callStep.owned_call, gone]
  · intro other q different isOther
    refine callStep.mode_other q ?_
    rintro rfl
    exact different (owned.eq_of_place found isOther)

theorem enters (owned : Owned s place) (empty : s.owned (.call thread) = none)
    (unplaced : place step = none) (isCreated : s.created step = true)
    (owns : call.bind Call.owns = some step)
    (fits : (next.mode (.call thread)).Fits (next.inst step).sched (next.memberships step)) :
    Owned next (Function.update place step (some (.call thread))) := by
  refine owned.change step ?_ callStep.created isCreated callStep.sched_other callStep.members_other
    ?_ fits
  · refine owned.located.enter unplaced empty ?_ callStep.owned_other
    rw [callStep.owned_call, owns]
  · intro other q different isOther
    refine callStep.mode_other q ?_
    rintro rfl
    exact owned.ne_place empty other isOther

theorem elsewhere (owned : Owned s place) (empty : s.owned (.call thread) = none)
    (stillEmpty : call.bind Call.owns = none) (isCreated : s.created step = true)
    (stands : s.Standing step (place step) → next.Standing step (place step)) :
    Owned next place := by
  have located : Located next.owned place := by
    refine owned.located.congr fun r => ?_
    by_cases isCall : r = .call thread
    · rw [isCall, callStep.owned_call, stillEmpty, empty]
    · exact callStep.owned_other r isCall
  rw [← Function.update_eq_self step place] at located
  have changed := owned.change step located callStep.created isCreated callStep.sched_other
    callStep.members_other ?_ (stands (owned.standing step))
  · rwa [Function.update_eq_self] at changed
  · intro other q _ isOther
    refine callStep.mode_other q ?_
    rintro rfl
    exact owned.ne_place empty other isOther

end One

end CallStep

end Steps

end CnC.Execute
