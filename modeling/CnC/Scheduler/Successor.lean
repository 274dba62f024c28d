import CnC.Scheduler.Owner

/-!
# The pointers to successors

A step instance has a successor only while a pass holds it, and until the pass has
cleared `m_succStep`.  Between the unsuspend of a failed instance and this write, the
instance may already be scheduled by a put of another thread, but it must not be
executed: `NoPassInWindow` says that it is not.
-/

namespace CnC.Execute

open Transition CnC.Scheduler Places

universe u

variable {Step Item Thread : Type u}

/-- The pass has given its instance away and has not cleared `m_succStep` yet. -/
def Phase.inWindow : Phase Step → Bool
  | .failed _ | .clear _ => true
  | _ => false

/-- The pass is about to write `m_succStep`. -/
def Phase.writes : Phase Step → Bool
  | .clear _ | .mark _ => true
  | _ => false

def State.windowAt (s : State Step Item Thread) (thread : Thread) : Option Step :=
  (s.pass thread).bind fun pass => if pass.phase.inWindow then some pass.step else none

def State.InWindow (s : State Step Item Thread) (step : Step) : Prop :=
  ∃ thread, s.windowAt thread = some step

def InPass (place : Step → Option (Place Thread)) (step : Step) : Prop :=
  ∃ thread, place step = some (.pass thread)

section Steps

variable [DecidableEq Step]

def State.starts (s : State Step Item Thread) : Action Step Item Thread → Option Step
  | .pop _ ticket => s.queue ticket
  | .advancePass thread =>
      match s.pass thread with
      | some ⟨step, _, .next (some succ)⟩ => if succ.1 = step then none else some succ.1
      | _ => none
  | _ => none

/-- No pass starts with an instance whose successor another pass has still to
clear. -/
def NoPassInWindow (bypass : Bool) (s : State Step Item Thread) (action : Action Step Item Thread) :
    Prop :=
  bypass = true → ∀ step, s.starts action = some step → ¬ s.InWindow step

/-- The instance may be executed again. -/
def Alive (s : State Step Item Thread) (place : Step → Option (Place Thread)) (step : Step) : Prop :=
  place step ≠ none ∨ 0 < s.memberships step

structure Pointers (bypass : Bool) (s : State Step Item Thread)
    (place : Step → Option (Place Thread)) : Prop where
  direct : bypass = false → ∀ step, s.succStep step = none
  directNewS : bypass = false → ∀ thread pass newS, s.pass thread = some pass →
    pass.phase.newS = some newS → newS = none
  unmarked : bypass = false → ∀ thread pass, s.pass thread = some pass → pass.phase.writes = false
  window : bypass = true → ∀ step, s.InWindow step → ¬ InPass place step
  unhung : ∀ step, Alive s place step → ¬ InPass place step → ¬ s.InWindow step →
    ∀ succ, s.succStep step = some succ → succ.1 = step
  read : ∀ thread pass newS, s.pass thread = some pass → pass.phase.owns = true →
    pass.phase.newS = some newS → newS = s.succStep pass.step
  write : ∀ thread step ticket after, s.call thread = some (.write step ticket after) →
    bypass = true ∧ ∃ current, s.current thread = some current ∧ s.succStep current = none
  busy : ∀ thread, s.call thread ≠ none → s.pass thread = none ∨ (s.current thread).isSome

variable {bypass : Bool} {s next : State Step Item Thread}
  {place nextPlace : Step → Option (Place Thread)}

namespace Pointers

theorem change (pointers : Pointers bypass s place) (step : Step)
    (succStep : ∀ other, other ≠ step → next.succStep other = s.succStep other)
    (inWindow : ∀ other, other ≠ step → (next.InWindow other ↔ s.InWindow other))
    (inPass : ∀ other, other ≠ step → (InPass nextPlace other ↔ InPass place other))
    (alive : ∀ other, other ≠ step → Alive next nextPlace other → Alive s place other)
    (direct : bypass = false → next.succStep step = none)
    (directNewS : bypass = false → ∀ thread pass newS, next.pass thread = some pass →
      pass.phase.newS = some newS → newS = none)
    (unmarked : bypass = false → ∀ thread pass, next.pass thread = some pass →
      pass.phase.writes = false)
    (window : bypass = true → next.InWindow step → ¬ InPass nextPlace step)
    (unhung : Alive next nextPlace step → ¬ InPass nextPlace step → ¬ next.InWindow step →
      ∀ succ, next.succStep step = some succ → succ.1 = step)
    (read : ∀ thread pass newS, next.pass thread = some pass → pass.phase.owns = true →
      pass.phase.newS = some newS → newS = next.succStep pass.step)
    (write : ∀ thread target ticket after, next.call thread = some (.write target ticket after) →
      bypass = true ∧ ∃ current, next.current thread = some current ∧ next.succStep current = none)
    (busy : ∀ thread, next.call thread ≠ none →
      next.pass thread = none ∨ (next.current thread).isSome) :
    Pointers bypass next nextPlace where
  direct isDirect other := by
    by_cases same : other = step
    · subst same
      exact direct isDirect
    · rw [succStep other same]
      exact pointers.direct isDirect other
  directNewS := directNewS
  unmarked := unmarked
  window isBypass other isIn := by
    by_cases same : other = step
    · subst same
      exact window isBypass isIn
    · rw [inPass other same]
      exact pointers.window isBypass other ((inWindow other same).mp isIn)
  unhung other isAlive notIn notWindow succ isSucc := by
    by_cases same : other = step
    · subst same
      exact unhung isAlive notIn notWindow succ isSucc
    · rw [succStep other same] at isSucc
      rw [inPass other same] at notIn
      rw [inWindow other same] at notWindow
      exact pointers.unhung other (alive other same isAlive) notIn notWindow succ isSucc
  read := read
  write := write
  busy := busy

theorem no_call (pointers : Pointers bypass s place) {thread : Thread} {pass : Pass Step}
    (found : s.pass thread = some pass) (notExecuting : s.current thread = none) :
    s.call thread = none := by
  by_contra busy
  rcases pointers.busy thread busy with free | running
  · rw [found] at free
    cases free
  · rw [notExecuting] at running
    cases running

end Pointers

variable [DecidableEq Thread] {thread : Thread} {step : Step} {ticket : Nat}
  {phase nextPhase : Phase Step} {pass : Option (Pass Step)}

namespace PassStep

variable (passStep : PassStep s next thread step pass)

include passStep

theorem windowAt_other {other : Thread} (different : other ≠ thread) :
    next.windowAt other = s.windowAt other := by
  rw [State.windowAt, State.windowAt, passStep.pass, Function.update_of_ne different]

theorem current_other {other : Thread} (different : other ≠ thread) :
    next.current other = s.current other := by
  rw [State.current, State.current, passStep.pass, Function.update_of_ne different]

theorem inWindow_iff (other : Step)
    (before : s.windowAt thread ≠ some other) (after : next.windowAt thread ≠ some other) :
    next.InWindow other ↔ s.InWindow other := by
  constructor
  · rintro ⟨at_, isIn⟩
    have different : at_ ≠ thread := fun same => after (same ▸ isIn)
    exact ⟨at_, passStep.windowAt_other different ▸ isIn⟩
  · rintro ⟨at_, isIn⟩
    have different : at_ ≠ thread := fun same => before (same ▸ isIn)
    exact ⟨at_, (passStep.windowAt_other different).trans isIn⟩

theorem pointers (pointers : Pointers bypass s place)
    (found : s.pass thread = some ⟨step, ticket, phase⟩)
    (noCall : s.call thread = none)
    (goes : ∀ after, pass = some after → after.phase.inWindow = true → after.step = step)
    (succStep : ∀ other, next.succStep other = s.succStep other)
    (inPass : ∀ other, other ≠ step → (InPass nextPlace other ↔ InPass place other))
    (alive : ∀ other, other ≠ step → nextPlace other ≠ none → place other ≠ none)
    (window : bypass = true → next.InWindow step → ¬ InPass nextPlace step)
    (unhung : Alive next nextPlace step → ¬ InPass nextPlace step → ¬ next.InWindow step →
      ∀ succ, s.succStep step = some succ → succ.1 = step)
    (read : ∀ after newS, pass = some after → after.phase.owns = true →
      after.phase.newS = some newS → newS = s.succStep after.step)
    (direct : bypass = false → ∀ after newS, pass = some after → after.phase.newS = some newS →
      newS = none)
    (unmarked : bypass = false → ∀ after, pass = some after → after.phase.writes = false) :
    Pointers bypass next nextPlace := by
  refine pointers.change step (fun other _ => succStep other) ?_ inPass ?_ ?_ ?_ ?_ window ?_ ?_
    ?_ ?_
  · intro other different
    refine passStep.inWindow_iff other ?_ ?_
    · intro isIn
      simp only [State.windowAt, found, Option.bind_some, Option.ite_none_right_eq_some] at isIn
      exact different (Option.some.inj isIn.2).symm
    · intro isIn
      simp only [State.windowAt, passStep.pass, Function.update_self, Option.bind_eq_some_iff,
        Option.ite_none_right_eq_some] at isIn
      obtain ⟨after, isAfter, inWindow, isOther⟩ := isIn
      exact different ((Option.some.inj isOther).symm.trans (goes after isAfter inWindow))
  · intro other different isAlive
    rcases isAlive with placed | member
    · exact .inl (alive other different placed)
    · exact .inr (passStep.members other different ▸ member)
  · intro isDirect
    rw [succStep]
    exact pointers.direct isDirect step
  · intro isDirect other after newS isAfter isNewS
    by_cases same : other = thread
    · rw [same, passStep.pass, Function.update_self] at isAfter
      exact direct isDirect after newS isAfter isNewS
    · rw [passStep.pass, Function.update_of_ne same] at isAfter
      exact pointers.directNewS isDirect other after newS isAfter isNewS
  · intro isDirect other after isAfter
    by_cases same : other = thread
    · rw [same, passStep.pass, Function.update_self] at isAfter
      exact unmarked isDirect after isAfter
    · rw [passStep.pass, Function.update_of_ne same] at isAfter
      exact pointers.unmarked isDirect other after isAfter
  · intro isAlive notIn notWindow
    rw [succStep]
    exact unhung isAlive notIn notWindow
  · intro other after newS isAfter owns isNewS
    rw [succStep]
    by_cases same : other = thread
    · rw [same, passStep.pass, Function.update_self] at isAfter
      exact read after newS isAfter owns isNewS
    · rw [passStep.pass, Function.update_of_ne same] at isAfter
      exact pointers.read other after newS isAfter owns isNewS
  · intro other target targetTicket item isCall
    rw [passStep.call] at isCall
    have different : other ≠ thread := by
      rintro rfl
      rw [noCall] at isCall
      cases isCall
    rw [passStep.current_other different]
    simp only [succStep]
    exact pointers.write other target targetTicket item isCall
  · intro other isBusy
    rw [passStep.call] at isBusy
    have different : other ≠ thread := by
      rintro rfl
      exact isBusy noCall
    rw [passStep.current_other different, passStep.pass, Function.update_of_ne different]
    exact pointers.busy other isBusy

end PassStep

structure Sound (bypass : Bool) (s : State Step Item Thread)
    (place : Step → Option (Place Thread)) : Prop where
  owned : Owned s place
  pointers : Pointers bypass s place

/-- A pass which owns its instance and has read its successor has read what is still
there. -/
theorem successor_of_owns {succStep : Step → Option (Step × Nat)}
    (read : ∀ newS, phase.newS = some newS → newS = succStep step) :
    Pass.successor ⟨step, ticket, phase⟩ succStep =
      (succStep step).filter fun succ => succ.1 ≠ step := by
  unfold Pass.successor
  cases isNewS : phase.newS with
  | none => rfl
  | some newS => rw [Option.getD_some, read newS isNewS]

omit [DecidableEq Thread] in
theorem successor_of_newS (found : s.pass thread = some ⟨step, ticket, phase⟩)
    (nextFound : next.pass thread = some ⟨step, ticket, nextPhase⟩)
    (newS : nextPhase.newS = phase.newS) (isRead : phase.newS.isSome) :
    next.successor thread = s.successor thread := by
  obtain ⟨value, isValue⟩ := Option.isSome_iff_exists.mp isRead
  simp only [State.successor, found, nextFound, Option.bind_some, Pass.successor, newS, isValue,
    Option.getD_some]

omit [DecidableEq Thread] in
theorem Pointers.successor_stays (pointers : Pointers bypass s place)
    (found : s.pass thread = some ⟨step, ticket, phase⟩)
    (nextFound : next.pass thread = some ⟨step, ticket, nextPhase⟩) (owns : phase.owns = true)
    (succStep : ∀ other, next.succStep other = s.succStep other)
    (read : ∀ newS, nextPhase.newS = some newS → newS = s.succStep step) :
    next.successor thread = s.successor thread := by
  have same : next.succStep = s.succStep := funext succStep
  simp only [State.successor, found, nextFound, Option.bind_some, same]
  rw [successor_of_owns read, successor_of_owns fun newS isNewS =>
    pointers.read thread _ newS found owns isNewS]

omit [DecidableEq Step] in
theorem writes_of_owns {phase : Phase Step} (owns : phase.owns = true) : phase.writes = false := by
  cases phase <;> simp_all [Phase.owns, Phase.writes]

omit [DecidableEq Step] [DecidableEq Thread] in
theorem windowAt_of_owns (found : s.pass thread = some ⟨step, ticket, phase⟩)
    (owns : phase.owns = true) : s.windowAt thread = none := by
  cases phase <;> simp_all [State.windowAt, Phase.inWindow, Phase.owns]

namespace PassStep

variable (passStep : PassStep s next thread step pass)

include passStep

theorem sound_stays (sound : Sound bypass s place)
    (found : s.pass thread = some ⟨step, ticket, phase⟩)
    (goes : pass = some ⟨step, ticket, nextPhase⟩) (owns : phase.owns = true)
    (nextOwns : nextPhase.owns = true) (noCall : s.call thread = none)
    (succStep : ∀ other, next.succStep other = s.succStep other)
    (read : ∀ newS, nextPhase.newS = some newS → newS = s.succStep step)
    (fits : phase.mode.Fits (s.inst step).sched (s.memberships step) →
      nextPhase.mode.Fits (next.inst step).sched (next.memberships step)) :
    Sound bypass next place := by
  have here : s.owned (.pass thread) = some step := by simp [State.owned, found, owns]
  have isPlace := (sound.owned.located _ _).mp here
  have nextFound : next.pass thread = some ⟨step, ticket, nextPhase⟩ := by
    rw [passStep.pass, goes, Function.update_self]
  have successor := sound.pointers.successor_stays found nextFound owns succStep read
  refine ⟨passStep.stays sound.owned found goes owns nextOwns successor fits, ?_⟩
  refine passStep.pointers sound.pointers found noCall ?_ succStep (fun _ _ => Iff.rfl)
    (fun _ _ => id) ?_ ?_ ?_ ?_ ?_
  · intro after isAfter inWindow
    cases goes.symm.trans isAfter
    rfl
  · intro isBypass isIn
    refine sound.pointers.window isBypass step ?_
    refine (passStep.inWindow_iff step ?_ ?_).mp isIn
    · simp [windowAt_of_owns found owns]
    · simp [windowAt_of_owns nextFound nextOwns]
  · exact fun _ notIn => absurd ⟨thread, isPlace⟩ notIn
  · intro after newS isAfter _ isNewS
    cases goes.symm.trans isAfter
    exact read newS isNewS
  · intro isDirect after newS isAfter isNewS
    cases goes.symm.trans isAfter
    rw [read newS isNewS]
    exact sound.pointers.direct isDirect step
  · intro _ after isAfter
    cases goes.symm.trans isAfter
    exact writes_of_owns nextOwns

theorem sound_leaves (sound : Sound bypass s place)
    (found : s.pass thread = some ⟨step, ticket, phase⟩)
    (goes : pass = some ⟨step, ticket, nextPhase⟩) (owns : phase.owns = true)
    (nextOwns : nextPhase.owns = false) (noCall : s.call thread = none)
    (succStep : ∀ other, next.succStep other = s.succStep other)
    (newS : nextPhase.newS = phase.newS) (isRead : phase.newS.isSome)
    (unmarked : nextPhase.writes = false)
    (closed : nextPhase.inWindow = false → next.memberships step = 0)
    (stands : phase.mode.Fits (s.inst step).sched (s.memberships step) →
      next.memberships step = 0 ∨ (next.inst step).sched.nSuspenders = next.memberships step) :
    Sound bypass next (Function.update place step none) := by
  have nextFound : next.pass thread = some ⟨step, ticket, nextPhase⟩ := by
    rw [passStep.pass, goes, Function.update_self]
  have notPlaced : ¬ InPass (Function.update place step none) step := by
    rintro ⟨at_, isAt⟩
    simp at isAt
  have successor := successor_of_newS found nextFound newS isRead
  refine ⟨passStep.leaves sound.owned found goes owns nextOwns successor stands, ?_⟩
  refine passStep.pointers sound.pointers found noCall ?_ succStep ?_ ?_ ?_ ?_ ?_ ?_ ?_
  · intro after isAfter inWindow
    cases goes.symm.trans isAfter
    rfl
  · intro other different
    simp only [InPass, Function.update_of_ne different]
  · intro other different
    rw [Function.update_of_ne different]
    exact id
  · exact fun _ _ => notPlaced
  · intro isAlive _ notWindow
    exfalso
    rcases isAlive with placed | member
    · simp at placed
    · cases inWindow : nextPhase.inWindow with
      | true =>
          refine notWindow ⟨thread, ?_⟩
          simp [State.windowAt, nextFound, inWindow]
      | false =>
          rw [closed inWindow] at member
          exact lt_irrefl _ member
  · intro after value isAfter isOwning
    cases goes.symm.trans isAfter
    rw [nextOwns] at isOwning
    cases isOwning
  · intro isDirect after value isAfter isNewS
    cases goes.symm.trans isAfter
    exact sound.pointers.directNewS isDirect thread _ value found (newS ▸ isNewS)
  · intro _ after isAfter
    cases goes.symm.trans isAfter
    exact unmarked

theorem sound_ends (sound : Sound bypass s place)
    (found : s.pass thread = some ⟨step, ticket, phase⟩) (owns : phase.owns = false)
    (noCall : s.call thread = none)
    (unchanged : ∀ other, (next.inst other).sched = (s.inst other).sched)
    (members : ∀ other, next.memberships other = s.memberships other)
    (succStep : ∀ other, next.succStep other = s.succStep other)
    (goes : ∀ after, pass = some after → after.step = step ∧ after.phase.owns = false ∧
      after.phase.newS = phase.newS)
    (ends : pass = none → s.successor thread = none)
    (unmarked : bypass = false → ∀ after, pass = some after → after.phase.writes = false)
    (window : s.windowAt thread = next.windowAt thread ∨
      bypass = false ∧ next.windowAt thread = none) :
    Sound bypass next place := by
  have isRead : phase.newS.isSome := by cases phase <;> simp_all [Phase.owns, Phase.newS]
  have successor : next.successor thread = s.successor thread := by
    cases isPass : pass with
    | none =>
        rw [ends isPass]
        simp [State.successor, passStep.pass, isPass]
    | some after =>
        obtain ⟨sameStep, -, newS⟩ := goes after isPass
        obtain ⟨value, isValue⟩ := Option.isSome_iff_exists.mp isRead
        simp only [State.successor, found, passStep.pass, isPass, Function.update_self,
          Option.bind_some, Pass.successor, newS, isValue, Option.getD_some, sameStep]
  have windows : ∀ other, other ≠ step → (next.InWindow other ↔ s.InWindow other) := by
    intro other different
    have before : s.windowAt thread ≠ some other := by
      intro isIn
      simp only [State.windowAt, found, Option.bind_some, Option.ite_none_right_eq_some] at isIn
      exact different (Option.some.inj isIn.2).symm
    refine passStep.inWindow_iff other before ?_
    rcases window with unchanged | ⟨-, closed⟩
    · exact unchanged ▸ before
    · simp [closed]
  have windowHere : s.windowAt thread = next.windowAt thread →
      (next.InWindow step ↔ s.InWindow step) := by
    intro unchanged
    constructor
    · rintro ⟨at_, isIn⟩
      by_cases here : at_ = thread
      · exact ⟨thread, unchanged.trans (here ▸ isIn)⟩
      · exact ⟨at_, passStep.windowAt_other here ▸ isIn⟩
    · rintro ⟨at_, isIn⟩
      by_cases here : at_ = thread
      · exact ⟨thread, unchanged.symm.trans (here ▸ isIn)⟩
      · exact ⟨at_, (passStep.windowAt_other here).trans isIn⟩
  refine ⟨passStep.ends sound.owned found owns unchanged members
    (fun after isAfter => (goes after isAfter).2.1) successor, ?_⟩
  refine passStep.pointers sound.pointers found noCall (fun after isAfter _ =>
    (goes after isAfter).1) succStep (fun _ _ => Iff.rfl) (fun _ _ => id) ?_ ?_ ?_ ?_ unmarked
  · intro isBypass isIn
    rcases window with unchanged | ⟨notBypass, -⟩
    · exact sound.pointers.window isBypass step ((windowHere unchanged).mp isIn)
    · rw [isBypass] at notBypass
      cases notBypass
  · intro isAlive notIn notWindow succ isSucc
    rcases window with unchanged | ⟨notBypass, -⟩
    · refine sound.pointers.unhung step ?_ notIn ?_ succ isSucc
      · rcases isAlive with placed | member
        · exact .inl placed
        · exact .inr (members step ▸ member)
      · rwa [windowHere unchanged] at notWindow
    · rw [sound.pointers.direct notBypass step] at isSucc
      cases isSucc
  · intro after newS isAfter isOwning
    rw [(goes after isAfter).2.1] at isOwning
    cases isOwning
  · intro isDirect after newS isAfter isNewS
    rw [(goes after isAfter).2.2] at isNewS
    exact sound.pointers.directNewS isDirect thread _ newS found isNewS

end PassStep

omit [DecidableEq Step] in
theorem owns_of_unread {phase : Phase Step} (unread : phase.newS = none) : phase.owns = true := by
  cases phase <;> simp_all [Phase.newS, Phase.owns]

omit [DecidableEq Thread] in
/-- The successors of other passes do not depend on an instance which is in no
pass. -/
theorem successor_setSucc (sound : Sound bypass s place) (target : Step)
    (notInPass : ¬ InPass place target) (succ : Option (Step × Nat)) (other : Thread) :
    (s.setSucc target succ).successor other = s.successor other := by
  unfold State.successor
  cases found : s.pass other with
  | none => simp [State.setSucc, found]
  | some pass =>
      simp only [State.setSucc, found, Option.bind_some, Pass.successor]
      cases isNewS : pass.phase.newS with
      | some newS => rfl
      | none =>
          have different : pass.step ≠ target := by
            rintro rfl
            have here : s.owned (.pass other) = some pass.step := by
              simp [State.owned, found, owns_of_unread isNewS]
            exact notInPass ⟨other, (sound.owned.located _ _).mp here⟩
          simp only [State.succStep, Option.getD_none, Function.update_of_ne different]

omit [DecidableEq Thread] in
@[simp]
theorem setSucc_sched (target other : Step) (succ : Option (Step × Nat)) :
    ((s.setSucc target succ).inst other).sched = (s.inst other).sched := by
  by_cases same : other = target
  · subst same
    simp [State.setSucc]
  · simp [State.setSucc, same]

omit [DecidableEq Thread] in
theorem setSucc_succStep_other {target other : Step} (different : other ≠ target)
    (succ : Option (Step × Nat)) :
    (s.setSucc target succ).succStep other = s.succStep other := by
  simp [State.setSucc, State.succStep, different]

omit [DecidableEq Thread] in
@[simp]
theorem setSucc_succStep_self (target : Step) (succ : Option (Step × Nat)) :
    (s.setSucc target succ).succStep target = succ := by
  simp [State.setSucc, State.succStep]

omit [DecidableEq Step] in
@[simp]
theorem setPass_succStep (pass : Option (Pass Step)) :
    (s.setPass thread pass).succStep = s.succStep := rfl

theorem setPass_successor_other {other : Thread} (different : other ≠ thread)
    (pass : Option (Pass Step)) :
    (s.setPass thread pass).successor other = s.successor other := by
  rw [State.successor, State.successor, setPass_succStep]
  simp [State.setPass, different]

theorem Sound.setSucc (sound : Sound true s place)
    (found : s.pass thread = some ⟨step, ticket, phase⟩) (owns : phase.owns = false)
    (nextOwns : nextPhase.owns = false) (newS : nextPhase.newS = phase.newS)
    (closed : nextPhase.inWindow = false) (target : Step) (succ : Option (Step × Nat))
    (notInPass : ¬ InPass place target)
    (window : s.windowAt thread = none ∨ s.windowAt thread = some target)
    (marks : ∀ value, succ = some value → value.1 = target) :
    Sound true ((s.setSucc target succ).setPass thread (some ⟨step, ticket, nextPhase⟩)) place := by
  have isRead : phase.newS.isSome := by cases phase <;> simp_all [Phase.owns, Phase.newS]
  obtain ⟨value, isValue⟩ := Option.isSome_iff_exists.mp isRead
  have noCall : s.call thread = none := by
    refine sound.pointers.no_call found ?_
    cases phase <;> simp_all [State.current, Phase.owns]
  have passStep : PassStep s ((s.setSucc target succ).setPass thread
      (some ⟨step, ticket, nextPhase⟩)) thread target (some ⟨step, ticket, nextPhase⟩) := by
    refine ⟨rfl, rfl, rfl, rfl, fun other _ => setSucc_sched target other succ, fun _ _ => rfl, ?_⟩
    intro other different
    rw [setPass_successor_other different]
    exact successor_setSucc sound target notInPass succ other
  have windowNext : ((s.setSucc target succ).setPass thread
      (some ⟨step, ticket, nextPhase⟩)).windowAt thread = none := by
    simp [State.windowAt, State.setPass, closed]
  refine ⟨?_, ?_⟩
  · refine passStep.ends sound.owned found owns (fun other => setSucc_sched target other succ)
      (fun _ => rfl) ?_ ?_
    · intro after isAfter
      cases isAfter
      exact nextOwns
    · simp only [State.successor, found, State.setPass, Function.update_self, Option.bind_some,
        Pass.successor, newS, isValue, Option.getD_some]
  · refine sound.pointers.change target (fun other different =>
      setSucc_succStep_other different succ) ?_ (fun _ _ => Iff.rfl) ?_ ?_ ?_ ?_ ?_ ?_ ?_ ?_ ?_
    · intro other different
      refine passStep.inWindow_iff other ?_ (by simp [windowNext])
      rcases window with nowhere | here
      · simp [nowhere]
      · rw [here]
        exact fun same => different (Option.some.inj same).symm
    · exact fun _ _ => id
    · exact fun impossible => by cases impossible
    · exact fun impossible => by cases impossible
    · exact fun impossible => by cases impossible
    · exact fun _ _ => notInPass
    · intro _ _ _ value isSucc
      rw [setPass_succStep, setSucc_succStep_self] at isSucc
      exact marks value isSucc
    · intro other after newValue isAfter isOwning isNewS
      by_cases same : other = thread
      · simp only [State.setPass, same, Function.update_self] at isAfter
        cases isAfter
        rw [nextOwns] at isOwning
        cases isOwning
      · simp only [State.setPass, Function.update_of_ne same] at isAfter
        have different : after.step ≠ target := by
          rintro rfl
          have here : s.owned (.pass other) = some after.step := by
            have isPass : s.pass other = some after := isAfter
            simp [State.owned, isPass, isOwning]
          exact notInPass ⟨other, (sound.owned.located _ _).mp here⟩
        rw [setPass_succStep, setSucc_succStep_other different]
        exact sound.pointers.read other after newValue isAfter isOwning isNewS
    · intro other called calledTicket item isCall
      have different : other ≠ thread := by
        rintro rfl
        exact absurd (noCall.symm.trans isCall) (by simp)
      obtain ⟨-, current, isCurrent, unhung⟩ :=
        sound.pointers.write other called calledTicket item isCall
      refine ⟨rfl, current, (passStep.current_other different).trans isCurrent, ?_⟩
      have elsewhere : current ≠ target := by
        rintro rfl
        refine notInPass ⟨other, (sound.owned.located _ _).mp ?_⟩
        unfold State.current at isCurrent
        split at isCurrent
        · rename_i isPass
          cases isCurrent
          simp [State.owned, isPass, Phase.owns]
        · cases isCurrent
      exact (setSucc_succStep_other elsewhere succ).trans unhung
    · intro other isBusy
      have different : other ≠ thread := by
        rintro rfl
        exact isBusy noCall
      rw [passStep.current_other different, passStep.pass, Function.update_of_ne different]
      exact sound.pointers.busy other isBusy

/-- A pass starts with an instance from the queue or with the successor of the pass
before. -/
theorem Sound.start (sound : Sound bypass s place) {origin : Place Thread}
    (origins : (∃ ticket, origin = .queue ticket) ∨ origin = .succ thread)
    (found : s.owned origin = some step) (empty : s.owned (.pass thread) = none)
    (noCall : s.call thread = none) (notWindow : bypass = true → ¬ s.InWindow step)
    (closed : s.windowAt thread = none)
    (left : s.owned (.succ thread) = none ∨ origin = .succ thread)
    (inst : next.inst = s.inst) (created : next.created = s.created)
    (waiting : next.waiting = s.waiting) (call : next.call = s.call)
    (queue : ∀ ticket, next.queue ticket =
      if origin = .queue ticket then none else s.queue ticket)
    (pass : next.pass = Function.update s.pass thread (some ⟨step, ticket, .begin⟩)) :
    Sound bypass next (Function.update place step (some (.pass thread))) ∧
      next.successor thread = none := by
  have notPass : origin ≠ .pass thread := by
    rcases origins with ⟨number, rfl⟩ | rfl <;> simp
  have isPlace := (sound.owned.located _ _).mp found
  have notInPass : ¬ InPass place step := by
    rintro ⟨at_, isAt⟩
    rw [isPlace] at isAt
    cases isAt
    rcases origins with ⟨number, impossible⟩ | impossible <;> cases impossible
  have succStep : next.succStep = s.succStep := by
    funext other
    rw [State.succStep, State.succStep, inst]
  have members : ∀ other, next.memberships other = s.memberships other := by
    intro other
    rw [State.memberships, State.memberships, waiting]
  have unhung : ∀ succ, s.succStep step = some succ → succ.1 = step := by
    intro succ isSucc
    cases isBypass : bypass with
    | true =>
        refine sound.pointers.unhung step (.inl ?_) notInPass (notWindow isBypass) succ isSucc
        simp [isPlace]
    | false =>
        rw [sound.pointers.direct isBypass step] at isSucc
        cases isSucc
  have noSuccessor : next.successor thread = none := by
    simp only [State.successor, pass, Function.update_self, Option.bind_some, succStep,
      Pass.successor, Phase.newS, Option.getD_none, Option.filter_eq_none_iff, ne_eq,
      decide_not, Bool.not_eq_true', decide_eq_false_iff_not, not_not]
    exact unhung
  have successors : ∀ other, other ≠ thread → next.successor other = s.successor other :=
    successor_congr pass fun other => congrFun succStep other
  have windows : ∀ other, next.windowAt other = s.windowAt other := by
    intro other
    by_cases same : other = thread
    · rw [same, closed]
      simp [State.windowAt, pass, Phase.inWindow]
    · rw [State.windowAt, State.windowAt, pass, Function.update_of_ne same]
  have inWindow : ∀ other, next.InWindow other ↔ s.InWindow other := by
    intro other
    simp only [State.InWindow, windows]
  have located : Located next.owned (Function.update place step (some (.pass thread))) := by
    refine sound.owned.located.move found notPass empty ?_ ?_ ?_
    · simp [State.owned, pass, Phase.owns]
    · rcases origins with ⟨number, rfl⟩ | rfl
      · simp [State.owned, queue]
      · simp [State.owned, noSuccessor]
    · intro r notOrigin isNotPass
      cases r with
      | queue number => simp only [State.owned, queue, if_neg (Ne.symm notOrigin)]
      | call other => simp only [State.owned, call]
      | pass other =>
          have different : other ≠ thread := fun same => isNotPass (congrArg Place.pass same)
          simp only [State.owned, pass, Function.update_of_ne different]
      | succ other =>
          by_cases same : other = thread
          · subst same
            have nothing := left.resolve_right (Ne.symm notOrigin)
            rw [nothing]
            simp only [State.owned, noSuccessor, Option.map_none]
          · simp only [State.owned, successors other same]
  refine ⟨⟨?_, ?_⟩, noSuccessor⟩
  · refine sound.owned.change step located created (sound.owned.created found)
      (fun other _ => by rw [inst]) (fun other _ => members other) ?_ ?_
    · intro other q _ isOther
      cases q with
      | queue number => rfl
      | succ at_ => rfl
      | call at_ => simp only [State.mode, call]
      | pass at_ =>
          have different : at_ ≠ thread := by
            rintro rfl
            exact sound.owned.ne_place empty other isOther
          simp only [State.mode, pass, Function.update_of_ne different]
    · have before := sound.owned.at_ found
      have unguarded : s.mode origin = .unguarded := by
        rcases origins with ⟨number, rfl⟩ | rfl <;> rfl
      rw [unguarded] at before
      simpa [State.Standing, State.mode, pass, Phase.mode, inst, members] using before
  · refine sound.pointers.change step (fun other _ => congrFun succStep other)
      (fun other _ => inWindow other) ?_ ?_ ?_ ?_ ?_ ?_ ?_ ?_ ?_ ?_
    · intro other different
      simp only [InPass, Function.update_of_ne different]
    · intro other different
      simp only [Alive, Function.update_of_ne different, members]
      exact id
    · intro isDirect
      rw [succStep]
      exact sound.pointers.direct isDirect step
    · intro isDirect other after newS isAfter isNewS
      by_cases same : other = thread
      · rw [same, pass, Function.update_self] at isAfter
        cases isAfter
        cases isNewS
      · rw [pass, Function.update_of_ne same] at isAfter
        exact sound.pointers.directNewS isDirect other after newS isAfter isNewS
    · intro isDirect other after isAfter
      by_cases same : other = thread
      · rw [same, pass, Function.update_self] at isAfter
        cases isAfter
        rfl
      · rw [pass, Function.update_of_ne same] at isAfter
        exact sound.pointers.unmarked isDirect other after isAfter
    · intro isBypass isIn
      exact absurd ((inWindow step).mp isIn) (notWindow isBypass)
    · intro _ notIn
      exact absurd ⟨thread, Function.update_self ..⟩ notIn
    · intro other after newS isAfter owns isNewS
      rw [succStep]
      by_cases same : other = thread
      · rw [same, pass, Function.update_self] at isAfter
        cases isAfter
        cases isNewS
      · rw [pass, Function.update_of_ne same] at isAfter
        exact sound.pointers.read other after newS isAfter owns isNewS
    · intro other target number item isCall
      rw [call] at isCall
      have different : other ≠ thread := by
        rintro rfl
        rw [noCall] at isCall
        cases isCall
      have sameCurrent : next.current other = s.current other := by
        rw [State.current, State.current, pass, Function.update_of_ne different]
      rw [sameCurrent, succStep]
      exact sound.pointers.write other target number item isCall
    · intro other isBusy
      rw [call] at isBusy
      have different : other ≠ thread := by
        rintro rfl
        exact isBusy noCall
      have sameCurrent : next.current other = s.current other := by
        rw [State.current, State.current, pass, Function.update_of_ne different]
      rw [sameCurrent, pass, Function.update_of_ne different]
      exact sound.pointers.busy other isBusy

namespace CallStep

variable {call : Option (Call Step Item)} {affected : Option Step}
  (callStep : CallStep s next thread affected call)

include callStep

theorem current_eq (other : Thread) : next.current other = s.current other := by
  rw [State.current, State.current, callStep.pass]

theorem pointers (pointers : Pointers bypass s place)
    (inPass : ∀ other, InPass nextPlace other ↔ InPass place other)
    (alive : ∀ other, Alive next nextPlace other → Alive s place other)
    (write : ∀ target ticket after, call = some (.write target ticket after) →
      bypass = true ∧ ∃ current, s.current thread = some current ∧ s.succStep current = none)
    (busy : call ≠ none → s.pass thread = none ∨ (s.current thread).isSome) :
    Pointers bypass next nextPlace := by
  have windows : ∀ other, next.InWindow other ↔ s.InWindow other := by
    intro other
    simp only [State.InWindow, State.windowAt, callStep.pass]
  have succStep : next.succStep = s.succStep := funext callStep.succStep
  refine ⟨?_, ?_, ?_, ?_, ?_, ?_, ?_, ?_⟩
  · rw [succStep]
    exact pointers.direct
  · rw [callStep.pass]
    exact pointers.directNewS
  · rw [callStep.pass]
    exact pointers.unmarked
  · intro isBypass other isIn
    rw [inPass]
    exact pointers.window isBypass other ((windows other).mp isIn)
  · intro other isAlive notIn notWindow
    rw [inPass] at notIn
    rw [windows] at notWindow
    rw [succStep]
    exact pointers.unhung other (alive other isAlive) notIn notWindow
  · rw [callStep.pass, succStep]
    exact pointers.read
  · intro other target number item isCall
    rw [callStep.current_eq, succStep]
    rw [callStep.call] at isCall
    by_cases same : other = thread
    · rw [same, Function.update_self] at isCall
      rw [same]
      exact write target number item isCall
    · rw [Function.update_of_ne same] at isCall
      exact pointers.write other target number item isCall
  · intro other isBusy
    rw [callStep.current_eq, callStep.pass]
    rw [callStep.call] at isBusy
    by_cases same : other = thread
    · rw [same, Function.update_self] at isBusy
      rw [same]
      exact busy isBusy
    · rw [Function.update_of_ne same] at isBusy
      exact pointers.busy other isBusy

end CallStep

theorem Sound.enqueue (sound : Sound bypass s place) {after : Option Item}
    (found : s.call thread = some (.enqueue step ticket after)) (free : s.queue ticket = none) :
    Sound bypass ({ s with queue := Function.update s.queue ticket (some step) }.setCall thread
      (afterSchedule step after)) (Function.update place step (some (.queue ticket))) := by
  have here : s.owned (.call thread) = some step := by simp [State.owned, found, Call.owns]
  have isPlace := (sound.owned.located _ _).mp here
  have gone : (afterSchedule step after).bind Call.owns = none := by
    cases after <;> rfl
  have busy : s.pass thread = none ∨ (s.current thread).isSome :=
    sound.pointers.busy thread (by simp [found])
  refine ⟨sound.owned.change step ?_ rfl (sound.owned.created here) (fun _ _ => rfl)
    (fun _ _ => rfl) ?_ ?_, ⟨sound.pointers.direct, sound.pointers.directNewS,
    sound.pointers.unmarked, ?_, ?_, sound.pointers.read, ?_, ?_⟩⟩
  · refine sound.owned.located.move here (by simp) free ?_ ?_ ?_
    · simp [State.owned, State.setCall]
    · simp [State.owned, State.setCall, gone]
    · intro r notCall notQueue
      cases r with
      | queue number =>
          have different : number ≠ ticket := fun same => notQueue (congrArg Place.queue same)
          simp [State.owned, State.setCall, different]
      | pass other => rfl
      | succ other => rfl
      | call other =>
          have different : other ≠ thread := fun same => notCall (congrArg Place.call same)
          simp [State.owned, State.setCall, different]
  · intro other q different isOther
    cases q with
    | queue number => rfl
    | pass at_ => rfl
    | succ at_ => rfl
    | call at_ =>
        have elsewhere : at_ ≠ thread := by
          rintro rfl
          exact different (sound.owned.eq_of_place here isOther)
        simp [State.mode, State.setCall, elsewhere]
  · have before := sound.owned.at_ here
    simp only [State.mode, found, Option.map_some, Option.getD_some, Call.mode] at before
    exact before
  · intro isBypass other isIn
    rintro ⟨at_, isAt⟩
    by_cases same : other = step
    · simp [same] at isAt
    · rw [Function.update_of_ne same] at isAt
      exact sound.pointers.window isBypass other isIn ⟨at_, isAt⟩
  · intro other isAlive notIn notWindow
    by_cases same : other = step
    · subst same
      refine sound.pointers.unhung other (.inl (by simp [isPlace])) ?_ notWindow
      rintro ⟨at_, isAt⟩
      rw [isPlace] at isAt
      cases isAt
    · simp only [InPass, Alive, Function.update_of_ne same] at notIn isAlive
      exact sound.pointers.unhung other isAlive notIn notWindow
  · intro other target number item isCall
    have elsewhere : other ≠ thread := by
      rintro rfl
      simp only [State.setCall, Function.update_self] at isCall
      cases after <;> cases isCall
    simp only [State.setCall, Function.update_of_ne elsewhere] at isCall
    exact sound.pointers.write other target number item isCall
  · intro other isBusy
    by_cases same : other = thread
    · exact same ▸ busy
    · simp only [State.setCall, Function.update_of_ne same] at isBusy
      exact sound.pointers.busy other isBusy

omit [DecidableEq Step] [DecidableEq Thread] in
theorem pass_of_current {current : Step} (isCurrent : s.current thread = some current) :
    ∃ ticket, s.pass thread = some ⟨current, ticket, .executing⟩ := by
  unfold State.current at isCurrent
  split at isCurrent
  · rename_i found
    cases isCurrent
    exact ⟨_, found⟩
  · cases isCurrent

omit [DecidableEq Thread] in
theorem owned_of_current {current : Step} (isCurrent : s.current thread = some current) :
    s.owned (.pass thread) = some current := by
  obtain ⟨ticket, found⟩ := pass_of_current isCurrent
  simp [State.owned, found, Phase.owns]

omit [DecidableEq Thread] in
theorem Owned.ne_current (owned : Owned s place) {current : Step}
    (inPass : s.owned (.pass thread) = some current) {other : Thread} {pass : Pass Step}
    (elsewhere : other ≠ thread) (isOther : s.pass other = some pass)
    (owns : pass.phase.owns = true) : pass.step ≠ current := by
  rintro rfl
  have there : s.owned (.pass other) = some pass.step := by simp [State.owned, isOther, owns]
  exact elsewhere (Place.pass.inj (owned.located.unique there inPass))

omit [DecidableEq Thread] in
theorem Owned.successor_setSucc_current (owned : Owned s place) {current : Step}
    (inPass : s.owned (.pass thread) = some current) {other : Thread} (elsewhere : other ≠ thread)
    (succ : Option (Step × Nat)) :
    (s.setSucc current succ).successor other = s.successor other := by
  unfold State.successor
  cases isOther : s.pass other with
  | none => simp [State.setSucc, isOther]
  | some pass =>
      simp only [State.setSucc, isOther, Option.bind_some, Pass.successor]
      cases isNewS : pass.phase.newS with
      | some newS => rfl
      | none =>
          have notCurrent := owned.ne_current inPass elsewhere isOther (owns_of_unread isNewS)
          simp only [State.succStep, Option.getD_none, Function.update_of_ne notCurrent]

theorem Sound.write (sound : Sound true s place) {after : Option Item} {current : Step}
    (found : s.call thread = some (.write step ticket after))
    (isCurrent : s.current thread = some current) :
    Sound true ((s.setSucc current (some (step, ticket))).setCall thread
      (afterSchedule step after)) (Function.update place step (some (.succ thread))) := by
  have here : s.owned (.call thread) = some step := by simp [State.owned, found, Call.owns]
  have isPlace := (sound.owned.located _ _).mp here
  have inPass := owned_of_current isCurrent
  have currentPlace := (sound.owned.located _ _).mp inPass
  have different : step ≠ current := by
    rintro rfl
    rw [isPlace] at currentPlace
    cases currentPlace
  have unhung : s.succStep current = none := by
    obtain ⟨-, other, isOther, unhung⟩ := sound.pointers.write thread step ticket after found
    rw [isCurrent] at isOther
    exact Option.some.inj isOther ▸ unhung
  have gone : (afterSchedule step after).bind Call.owns = none := by
    cases after <;> rfl
  obtain ⟨number, isPass⟩ := pass_of_current isCurrent
  have notOther : ∀ other pass, other ≠ thread → s.pass other = some pass →
      pass.phase.owns = true → pass.step ≠ current :=
    fun _ _ elsewhere isOther owns => sound.owned.ne_current inPass elsewhere isOther owns
  have successors : ∀ other, other ≠ thread →
      (s.setSucc current (some (step, ticket))).successor other = s.successor other :=
    fun _ elsewhere => sound.owned.successor_setSucc_current inPass elsewhere _
  refine ⟨sound.owned.change step ?_ rfl (sound.owned.created here)
    (fun other _ => setSucc_sched current other _) (fun _ _ => rfl) ?_ ?_,
    sound.pointers.change current (fun other => fun elsewhere =>
      setSucc_succStep_other elsewhere _) (fun _ _ => Iff.rfl) ?_ ?_ ?_ ?_ ?_ ?_ ?_ ?_ ?_ ?_⟩
  · refine sound.owned.located.move here (by simp) ?_ ?_ ?_ ?_
    · simp [State.owned, State.successor, isPass, Pass.successor, Phase.newS, unhung]
    · simp [State.owned, State.setCall, State.setSucc, State.successor, isPass, Pass.successor,
        Phase.newS, State.succStep, different]
    · simp [State.owned, State.setCall, gone]
    · intro r notCall notSucc
      cases r with
      | queue number => rfl
      | pass other => rfl
      | succ other =>
          have elsewhere : other ≠ thread := fun same => notSucc (congrArg Place.succ same)
          exact congrArg (Option.map Prod.fst) (successors other elsewhere)
      | call other =>
          have elsewhere : other ≠ thread := fun same => notCall (congrArg Place.call same)
          simp [State.owned, State.setCall, State.setSucc, elsewhere]
  · intro other q notStep isOther
    cases q with
    | queue number => rfl
    | pass at_ => rfl
    | succ at_ => rfl
    | call at_ =>
        have elsewhere : at_ ≠ thread := by
          rintro rfl
          exact notStep (sound.owned.eq_of_place here isOther)
        simp [State.mode, State.setCall, State.setSucc, elsewhere]
  · have before := sound.owned.at_ here
    simp only [State.mode, found, Option.map_some, Option.getD_some, Call.mode] at before
    change Mode.Fits ((s.setSucc current (some (step, ticket))).inst step).sched _ .unguarded
    rw [setSucc_sched]
    exact before
  · intro other notCurrent
    by_cases same : other = step
    · subst same
      refine iff_of_false ?_ ?_
      · rintro ⟨at_, isAt⟩
        simp at isAt
      · rintro ⟨at_, isAt⟩
        rw [isPlace] at isAt
        cases isAt
    · simp only [InPass, Function.update_of_ne same]
  · intro other notCurrent isAlive
    by_cases same : other = step
    · subst same
      exact .inl (by simp [isPlace])
    · simp only [Alive, Function.update_of_ne same] at isAlive
      exact isAlive
  · intro impossible
    cases impossible
  · intro impossible
    cases impossible
  · intro impossible
    cases impossible
  · intro _ isIn
    exact absurd ⟨thread, currentPlace⟩ (sound.pointers.window rfl current isIn)
  · intro _ notIn
    refine absurd ⟨thread, ?_⟩ notIn
    rw [Function.update_of_ne (Ne.symm different)]
    exact currentPlace
  · intro other pass newS isOther owns isNewS
    by_cases same : other = thread
    · subst same
      cases isPass.symm.trans isOther
      cases isNewS
    · have notCurrent := notOther other pass same isOther owns
      change newS = (s.setSucc current (some (step, ticket))).succStep pass.step
      rw [setSucc_succStep_other notCurrent]
      exact sound.pointers.read other pass newS isOther owns isNewS
  · intro other target calledTicket item isCall
    have elsewhere : other ≠ thread := by
      rintro rfl
      simp only [State.setCall, Function.update_self] at isCall
      cases after <;> cases isCall
    simp only [State.setCall, Function.update_of_ne elsewhere] at isCall
    obtain ⟨-, running, isRunning, isUnhung⟩ :=
      sound.pointers.write other target calledTicket item isCall
    refine ⟨rfl, running, isRunning, ?_⟩
    have notCurrent : running ≠ current := by
      rintro rfl
      exact elsewhere (Place.pass.inj
        (sound.owned.located.unique (owned_of_current isRunning) inPass))
    exact (setSucc_succStep_other notCurrent _).trans isUnhung
  · intro other isBusy
    by_cases same : other = thread
    · subst same
      right
      change (s.current other).isSome = true
      rw [isCurrent]
      rfl
    · simp only [State.setCall, Function.update_of_ne same] at isBusy
      exact sound.pointers.busy other isBusy

omit [DecidableEq Thread] in
theorem Owned.successor_create (owned : Owned s place) (unplaced : place step = none)
    (value : Instance Step) (other : Thread) :
    ({ s with inst := Function.update s.inst step value } : State Step Item Thread).successor
      other = s.successor other := by
  unfold State.successor
  cases isOther : s.pass other with
  | none => rfl
  | some pass =>
      simp only [Option.bind_some, Pass.successor]
      cases isNewS : pass.phase.newS with
      | some newS => rfl
      | none =>
          have different : pass.step ≠ step := by
            rintro rfl
            refine owned.located.empty_of_unplaced unplaced (.pass other) ?_
            simp [State.owned, isOther, owns_of_unread isNewS]
          simp only [State.succStep, Option.getD_none, Function.update_of_ne different]

theorem Sound.create (sound : Sound bypass s place) (free : s.Free thread)
    (absent : s.created step = false) :
    Sound bypass ({ s with
      inst := Function.update s.inst step { sched := .create, succStep := none }
      created := Function.update s.created step true }.setCall thread
        (some (.prepareBegin step))) (Function.update place step (some (.call thread))) := by
  obtain ⟨unplaced, noMember⟩ := sound.owned.fresh step absent
  have noCall : s.call thread = none := by simpa using free.1
  have empty : s.owned (.call thread) = none := by simp [State.owned, noCall]
  have notOther : ∀ other pass, s.pass other = some pass → pass.phase.owns = true →
      pass.step ≠ step := by
    rintro other pass isOther owns rfl
    refine sound.owned.located.empty_of_unplaced unplaced (.pass other) ?_
    simp [State.owned, isOther, owns]
  have notInPass : ¬ InPass place step := by
    rintro ⟨at_, isAt⟩
    rw [unplaced] at isAt
    cases isAt
  have sched : ∀ other, other ≠ step → Function.update s.inst step
      { sched := .create, succStep := none } other = s.inst other :=
    fun other different => Function.update_of_ne different ..
  refine ⟨⟨?_, ?_, ?_⟩, sound.pointers.change step ?_ (fun _ _ => Iff.rfl) ?_ ?_ ?_ ?_ ?_ ?_ ?_
    ?_ ?_ ?_⟩
  · refine sound.owned.located.enter unplaced empty ?_ ?_
    · simp [State.owned, State.setCall, Call.owns]
    · intro r notCall
      cases r with
      | queue number => rfl
      | pass other => rfl
      | succ other =>
          exact congrArg (Option.map Prod.fst) (sound.owned.successor_create unplaced _ other)
      | call other =>
          have elsewhere : other ≠ thread := fun same => notCall (congrArg Place.call same)
          simp [State.owned, State.setCall, elsewhere]
  · intro other
    by_cases same : other = step
    · subst same
      rw [Function.update_self]
      simp only [State.Standing, State.mode, State.setCall, Function.update_self, Option.map_some,
        Option.getD_some, Call.mode, Mode.Fits]
      exact ⟨noMember, rfl⟩
    · rw [Function.update_of_ne same]
      have before := sound.owned.standing other
      cases isPlace : place other with
      | none =>
          rw [isPlace] at before
          simp only [State.Standing, State.setCall, sched other same]
          exact before
      | some q =>
          rw [isPlace] at before
          have mode : (({ s with
              inst := Function.update s.inst step { sched := .create, succStep := none }
              created := Function.update s.created step true } : State Step Item Thread).setCall
                thread (some (.prepareBegin step))).mode q = s.mode q := by
            cases q with
            | queue number => rfl
            | pass at_ => rfl
            | succ at_ => rfl
            | call at_ =>
                have elsewhere : at_ ≠ thread := by
                  rintro rfl
                  exact sound.owned.ne_place empty other isPlace
                simp [State.mode, State.setCall, elsewhere]
          simp only [State.Standing] at before ⊢
          rw [mode]
          simp only [State.setCall, sched other same]
          exact before
  · intro other notCreated
    by_cases same : other = step
    · simp [State.setCall, same] at notCreated
    · simp only [State.setCall, Function.update_of_ne same] at notCreated
      rw [Function.update_of_ne same]
      exact sound.owned.fresh other notCreated
  · intro other different
    simp only [State.succStep, State.setCall, sched other different]
  · intro other different
    simp only [InPass, Function.update_of_ne different]
  · intro other different isAlive
    simp only [Alive, Function.update_of_ne different] at isAlive
    exact isAlive
  · intro _
    simp [State.succStep, State.setCall]
  · exact sound.pointers.directNewS
  · exact sound.pointers.unmarked
  · rintro _ _ ⟨at_, isAt⟩
    simp at isAt
  · intro _ _ _ succ isSucc
    simp [State.succStep, State.setCall] at isSucc
  · intro other pass newS isOther owns isNewS
    have different := notOther other pass isOther owns
    simp only [State.succStep, State.setCall, sched pass.step different]
    exact sound.pointers.read other pass newS isOther owns isNewS
  · intro other target number item isCall
    have elsewhere : other ≠ thread := by
      rintro rfl
      simp [State.setCall] at isCall
    simp only [State.setCall, Function.update_of_ne elsewhere] at isCall
    obtain ⟨isBypass, current, isCurrent, unhung⟩ :=
      sound.pointers.write other target number item isCall
    refine ⟨isBypass, current, isCurrent, ?_⟩
    have different : current ≠ step := by
      rintro rfl
      exact sound.owned.located.empty_of_unplaced unplaced _ (owned_of_current isCurrent)
    simp only [State.succStep, State.setCall, sched current different]
    exact unhung
  · intro other isBusy
    by_cases same : other = thread
    · subst same
      rcases free.2 with noPass | running
      · exact .inl (Option.isNone_iff_eq_none.mp noPass)
      · exact .inr running
    · simp only [State.setCall, Function.update_of_ne same] at isBusy
      exact sound.pointers.busy other isBusy

end Steps

end CnC.Execute
