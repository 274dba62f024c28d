import CnC.Scheduler.InFlight

/-!
# The deletion of step instances

A step instance is deleted by the pass in which it succeeds, or by the thread which has
prepared it if the tuner sends it to another process or if `prepare` finds it done.  The
last test, and the count of resumed steps, read an instance which is not at the place of
the thread any more.
-/

namespace CnC.Execute

open Transition CnC.Scheduler Places

universe u

variable {Step Item Thread : Type u}

/-- The instance at which the thread still has to look after it has given it away. -/
def Call.inspects : Call Step Item → Option Step
  | .log step _ | .test step | .delete step => some step
  | .resume _ | .prepareBegin _ | .preparing _ | .prepareEnd _ | .count _ _ | .hang _ _ _
  | .enqueue _ _ _ | .write _ _ _ => none

/-- The instance which `prepare` prepares. -/
def Call.prepares : Call Step Item → Option Step
  | .prepareBegin step | .preparing step | .prepareEnd step => some step
  | .resume _ | .log _ _ | .test _ | .delete _ | .count _ _ | .hang _ _ _ | .enqueue _ _ _
  | .write _ _ _ => none

def State.Inspects (s : State Step Item Thread) (thread : Thread) (step : Step) : Prop :=
  (s.call thread).bind Call.inspects = some step

def Pass.destroys : Pass Step → Option Step
  | ⟨step, _, .delete _⟩ => some step
  | _ => none

def State.destroys (s : State Step Item Thread) : Action Step Item Thread → Option Step
  | .advancePass thread => (s.pass thread).bind Pass.destroys
  | _ => none

/-- The instance which is done after a pass. -/
def State.finishes (s : State Step Item Thread) : Action Step Item Thread → Option Step
  | .return_ thread .success => s.current thread
  | _ => none

section Steps

variable [DecidableEq Step]

/-- Between the last unsuspend of an instance and the last look of the thread at it, no
other thread sets it to done or deletes it. -/
def Careful (bypass : Bool) (s : State Step Item Thread) (action : Action Step Item Thread) :
    Prop :=
  NoPassInWindow bypass s action ∧
    (∀ step, s.finishes action = some step → ∀ thread, s.call thread ≠ some (.test step)) ∧
    ∀ step, s.destroys action = some step → ∀ thread, ¬ s.Inspects thread step

def State.Used (s : State Step Item Thread) (step : Step) : Prop :=
  (∃ place, s.owned place = some step) ∨ 0 < s.memberships step

/-- No thread will use the instance, except for those which look at it. -/
def State.Retired (s : State Step Item Thread) (bypass : Bool) (step : Step) : Prop :=
  ¬ s.Used step ∧ (bypass = true → ¬ s.InWindow step)

variable {bypass : Bool} {s next : State Step Item Thread} {thread : Thread} {step : Step}
  {ticket : Nat} {phase nextPhase : Phase Step} {place : Step → Option (Place Thread)}

theorem Owned.created_of_used (owned : Owned s place) (used : s.Used step) :
    s.created step = true := by
  rcases used with ⟨p, here⟩ | member
  · exact owned.created here
  · by_contra notCreated
    have noMember := (owned.fresh step (by simpa using notCreated)).2
    omega

variable [DecidableEq Thread]

/-- A step of a pass which goes on with its instance, or has given it away. -/
structure Advance (s next : State Step Item Thread) (thread : Thread) (step : Step)
    (ticket : Nat) (phase nextPhase : Phase Step) : Prop where
  passStep : PassStep s next thread step (some ⟨step, ticket, nextPhase⟩)
  waiting : next.waiting = s.waiting
  successor : next.successor thread = s.successor thread
  owns : nextPhase.owns = true → phase.owns = true
  window : nextPhase.inWindow = true → phase.owns = true ∨ phase.inWindow = true
  sched : phase.owns = false → (next.inst step).sched = (s.inst step).sched
  status : (next.inst step).sched.status = (s.inst step).sched.status
  ends : (Pass.destroys ⟨step, ticket, phase⟩).isSome →
    nextPhase.owns = false ∧ nextPhase.inWindow = false
  deletes : next.history.deletes = match Pass.destroys ⟨step, ticket, phase⟩ with
    | some target =>
        Function.update s.history.deletes target (s.history.deletes target + 1)
    | none => s.history.deletes

theorem Advance.of_owns (sound : Sound bypass s place)
    (found : s.pass thread = some ⟨step, ticket, phase⟩) (owns : phase.owns = true)
    (passStep : PassStep s next thread step (some ⟨step, ticket, nextPhase⟩))
    (waiting : next.waiting = s.waiting)
    (succStep : ∀ other, next.succStep other = s.succStep other)
    (read : ∀ newS, nextPhase.newS = some newS → newS = s.succStep step)
    (status : (next.inst step).sched.status = (s.inst step).sched.status)
    (ends : (Pass.destroys ⟨step, ticket, phase⟩).isSome →
      nextPhase.owns = false ∧ nextPhase.inWindow = false)
    (deletes : next.history.deletes = match Pass.destroys ⟨step, ticket, phase⟩ with
      | some target =>
          Function.update s.history.deletes target (s.history.deletes target + 1)
      | none => s.history.deletes) : Advance s next thread step ticket phase nextPhase where
  passStep := passStep
  waiting := waiting
  successor := by
    refine sound.pointers.successor_stays found ?_ owns succStep read
    rw [passStep.pass, Function.update_self]
  owns := fun _ => owns
  window := fun _ => .inl owns
  sched := by
    intro gone
    rw [owns] at gone
    cases gone
  status := status
  ends := ends
  deletes := deletes

theorem Advance.of_gone (found : s.pass thread = some ⟨step, ticket, phase⟩)
    (gone : phase.owns = false) (nextGone : nextPhase.owns = false)
    (passStep : PassStep s next thread step (some ⟨step, ticket, nextPhase⟩))
    (waiting : next.waiting = s.waiting) (newS : nextPhase.newS = phase.newS)
    (window : nextPhase.inWindow = true → phase.inWindow = true)
    (sched : (next.inst step).sched = (s.inst step).sched)
    (deletes : next.history.deletes = s.history.deletes) :
    Advance s next thread step ticket phase nextPhase where
  passStep := passStep
  waiting := waiting
  successor := by
    refine successor_of_newS found ?_ newS ?_
    · rw [passStep.pass, Function.update_self]
    · cases phase <;> simp_all [Phase.owns, Phase.newS]
  owns := by
    intro isOwner
    rw [nextGone] at isOwner
    cases isOwner
  window := fun isIn => .inr (window isIn)
  sched := fun _ => sched
  status := by rw [sched]
  ends := by
    intro destroys
    cases phase <;> simp_all [Phase.owns, Pass.destroys]
  deletes := by
    have keeps : Pass.destroys ⟨step, ticket, phase⟩ = none := by
      cases phase <;> simp_all [Phase.owns, Pass.destroys]
    rw [keeps, deletes]

theorem passStep_setSucc (sound : Sound bypass s place) {target : Step}
    (notInPass : ¬ InPass place target) (succ : Option (Step × Nat)) (pass : Option (Pass Step)) :
    PassStep s ((s.setSucc target succ).setPass thread pass) thread step pass := by
  refine ⟨rfl, rfl, rfl, rfl, fun other _ => setSucc_sched target other succ, fun _ _ => rfl, ?_⟩
  intro other different
  rw [setPass_successor_other different]
  exact successor_setSucc sound target notInPass succ other

theorem advance_of_advancePass (sound : Sound bypass s place)
    (found : s.pass thread = some ⟨step, ticket, phase⟩) (notNext : ∀ newS, phase ≠ .next newS)
    (advanced : s.advancePass bypass thread ⟨step, ticket, phase⟩ = some next) :
    ∃ nextPhase, Advance s next thread step ticket phase nextPhase := by
  have isRead := fun newS => sound.pointers.read thread _ newS found
  have decremented : ∀ nextPhase, PassStep s
      ((s.decrement ticket).setPass thread (some ⟨step, ticket, nextPhase⟩)) thread step
      (some ⟨step, ticket, nextPhase⟩) := fun _ =>
    ⟨rfl, rfl, rfl, rfl, fun _ _ => rfl, fun _ _ => rfl,
      fun _ different => setPass_successor_other different _⟩
  have unhung : ∀ change other, (s.modify step change).succStep other = s.succStep other :=
    fun change other => congrFun (modify_succStep change) other
  have status : ∀ change : Schedulable → Schedulable,
      (∀ sched, (change sched).status = sched.status) →
      ((s.modify step change).inst step).sched.status = (s.inst step).sched.status := by
    intro change keeps
    rw [modify_sched_self, keeps]
  cases phase with
  | begin =>
      cases advanced
      exact ⟨.executing, .of_owns sound found rfl (passStep_modify s thread step _ _) rfl
        (unhung fun sched => sched.suspend.resetWasSuspended) (fun _ impossible => by cases impossible)
        (status (fun sched => sched.suspend.resetWasSuspended) fun _ => rfl)
        (fun impossible => by cases impossible) rfl⟩
  | executing => cases advanced
  | returned success =>
      cases advanced
      refine ⟨_, .of_owns sound found rfl (passStep_setPass s thread step _) rfl (fun _ => rfl) ?_
        rfl (fun impossible => by cases impossible) rfl⟩
      rintro newS ⟨⟩
      cases isBypass : bypass with
      | true => rfl
      | false => exact (sound.pointers.direct isBypass step).symm
  | read success newS =>
      have isNewS : ∀ value, some newS = some value → value = s.succStep step := by
        rintro value ⟨⟩
        exact isRead newS rfl rfl
      cases success with
      | true =>
          cases advanced
          exact ⟨.delete newS, .of_owns sound found rfl (decremented _) rfl (fun _ => rfl) isNewS rfl
            (fun impossible => by cases impossible) rfl⟩
      | false =>
          cases advanced
          refine ⟨_, .of_owns sound found rfl (passStep_modify s thread step _ _) rfl
            (unhung fun sched => sched.unsuspend.1) ?_
            (status (fun sched => sched.unsuspend.1) fun _ => rfl)
            (fun impossible => by cases impossible) rfl⟩
          split <;> exact isNewS
  | delete newS =>
      cases advanced
      have passStep : PassStep s
          ((s.delete step).setPass thread (some ⟨step, ticket, .next newS⟩)) thread step
          (some ⟨step, ticket, .next newS⟩) :=
        ⟨rfl, rfl, rfl, rfl, fun _ _ => rfl, fun _ _ => rfl,
          fun _ different => setPass_successor_other different _⟩
      refine ⟨_, .of_owns sound found rfl passStep rfl (fun _ => rfl) ?_ rfl (fun _ => ⟨rfl, rfl⟩) rfl⟩
      rintro value ⟨⟩
      exact isRead newS rfl rfl
  | again newS =>
      cases advanced
      refine ⟨_, .of_owns sound found rfl (passStep_setPass s thread step _) rfl (fun _ => rfl) ?_
        rfl (fun impossible => by cases impossible) rfl⟩
      intro value isValue
      split at isValue
      · cases isValue
        exact isRead newS rfl rfl
      · cases isValue
  | failed newS =>
      cases advanced
      refine ⟨_, .of_gone found rfl ?_ (decremented _) rfl ?_ (fun _ => rfl) rfl rfl⟩
      · cases bypass <;> rfl
      · cases bypass <;> rfl
  | clear newS =>
      cases advanced
      have isBypass : bypass = true := by
        by_contra isDirect
        have unmarked := sound.pointers.unmarked (by simpa using isDirect) thread _ found
        cases unmarked
      have isIn : s.windowAt thread = some step := by simp [State.windowAt, found, Phase.inWindow]
      have notInPass := sound.pointers.window isBypass step ⟨thread, isIn⟩
      exact ⟨.mark newS, .of_gone found rfl rfl (passStep_setSucc sound notInPass none _) rfl rfl
        (fun impossible => by cases impossible) (setSucc_sched step step none) rfl⟩
  | mark newS =>
      have unmarked : Advance s (s.setPass thread (some ⟨step, ticket, .next newS⟩)) thread step
          ticket (.mark newS) (.next newS) :=
        .of_gone found rfl rfl (passStep_setPass s thread step _) rfl rfl
          (fun impossible => by cases impossible) rfl rfl
      refine ⟨.next newS, ?_⟩
      cases newS with
      | none =>
          cases advanced
          exact unmarked
      | some succ =>
          simp only [State.advancePass] at advanced
          split at advanced
          · cases advanced
            exact unmarked
          · rename_i different
            cases advanced
            have here : s.owned (.succ thread) = some succ.1 := by
              simp [State.owned, State.successor, found, Pass.successor, Phase.newS, different,
                Option.filter]
            have notInPass : ¬ InPass place succ.1 := by
              rintro ⟨at_, isAt⟩
              rw [(sound.owned.located _ _).mp here] at isAt
              cases isAt
            exact .of_gone found rfl rfl (passStep_setSucc sound notInPass (some succ) _) rfl rfl
              (fun impossible => by cases impossible) (setSucc_sched succ.1 step (some succ)) rfl
  | next newS => exact absurd rfl (notNext newS)

theorem Advance.used_back (advance : Advance s next thread step ticket phase nextPhase)
    (found : s.pass thread = some ⟨step, ticket, phase⟩) {other : Step} (used : next.Used other) :
    s.Used other := by
  rcases used with ⟨p, here⟩ | member
  · left
    by_cases isPass : p = .pass thread
    · subst isPass
      simp only [State.owned, advance.passStep.pass, Function.update_self, Option.bind_some,
        Option.ite_none_right_eq_some] at here
      refine ⟨.pass thread, ?_⟩
      simp only [State.owned, found, Option.bind_some, advance.owns here.1, if_true, here.2]
    · by_cases isSucc : p = .succ thread
      · subst isSucc
        simp only [State.owned, advance.successor] at here
        exact ⟨.succ thread, here⟩
      · rw [advance.passStep.owned_other p isPass isSucc] at here
        exact ⟨p, here⟩
  · right
    rwa [State.memberships, advance.waiting] at member

theorem Advance.window_back (advance : Advance s next thread step ticket phase nextPhase)
    (found : s.pass thread = some ⟨step, ticket, phase⟩) {other : Step}
    (isIn : next.InWindow other) : s.InWindow other ∨ ∃ at_, s.owned (.pass at_) = some other := by
  obtain ⟨at_, isAt⟩ := isIn
  by_cases same : at_ = thread
  · subst same
    simp only [State.windowAt, advance.passStep.pass, Function.update_self, Option.bind_some,
      Option.ite_none_right_eq_some, Option.some.injEq] at isAt
    obtain ⟨isWindow, rfl⟩ := isAt
    rcases advance.window isWindow with owns | wasWindow
    · exact .inr ⟨at_, by simp [State.owned, found, owns]⟩
    · exact .inl ⟨at_, by simp [State.windowAt, found, wasWindow]⟩
  · rw [advance.passStep.windowAt_other same] at isAt
    exact .inl ⟨at_, isAt⟩

omit [DecidableEq Thread] in
/-- A retired instance is used by no one, a test finds an instance not done, and only
the logging of a resumed step looks at an instance which is not yet prepared. -/
structure Tended (bypass : Bool) (s : State Step Item Thread) : Prop where
  gone : ∀ step, 0 < s.history.deletes step → s.Retired bypass step ∧
    ∀ thread, ¬ s.Inspects thread step
  deleting : ∀ thread step, s.call thread = some (.delete step) → s.Retired bypass step ∧
    ∀ other, s.Inspects other step → other = thread
  test : ∀ thread step, s.call thread = some (.test step) → (s.inst step).sched.status ≠ .done
  preparing : ∀ thread call step, s.call thread = some call → call.prepares = some step →
    (s.inst step).sched.status ≠ .done ∧ ¬ s.InWindow step ∧
      ∀ other, s.Inspects other step → (∃ item, s.call other = some (.log step item)) ∧
        call ≠ .prepareBegin step ∧
        (call = .preparing step → (s.inst step).sched.wasSuspendedSinceReset = true)
  fresh : ∀ step, s.created step = false → s.history.deletes step = 0 ∧ ¬ s.InWindow step ∧
    ∀ thread, ¬ s.Inspects thread step
  once : ∀ step, s.history.deletes step ≤ 1

omit [DecidableEq Step] [DecidableEq Thread] in
theorem owned_of_prepares [DecidableEq Step] {call : Call Step Item}
    (found : s.call thread = some call) (prepares : call.prepares = some step) :
    s.owned (.call thread) = some step := by
  cases call <;> cases prepares <;> simp [State.owned, found, Call.owns]

omit [DecidableEq Thread] in
theorem State.Retired.stays (retired : s.Retired bypass step)
    (used : next.Used step → s.Used step)
    (window : next.InWindow step → s.InWindow step ∨ s.Used step) : next.Retired bypass step := by
  refine ⟨fun isUsed => retired.1 (used isUsed), fun isBypass isIn => ?_⟩
  rcases window isIn with wasIn | wasUsed
  · exact retired.2 isBypass wasIn
  · exact retired.1 wasUsed

namespace Tended

omit [DecidableEq Thread] in
theorem not_deleted (tended : Tended bypass s) (used : s.Used step) :
    s.history.deletes step = 0 := by
  by_contra deleted
  exact (tended.gone step (Nat.pos_of_ne_zero deleted)).1.1 used

omit [DecidableEq Thread] in
theorem pass (tended : Tended bypass s) (owned : Owned s place) (call : next.call = s.call)
    (created : next.created = s.created) (used : ∀ step, next.Used step → s.Used step)
    (window : ∀ step, next.InWindow step →
      s.InWindow step ∨ ∃ thread, s.owned (.pass thread) = some step)
    (sched : ∀ step, (∀ thread, s.owned (.pass thread) ≠ some step) →
      (next.inst step).sched = (s.inst step).sched)
    (done : ∀ step, (next.inst step).sched.status = .done →
      (s.inst step).sched.status = .done ∨ ∀ thread, s.call thread ≠ some (.test step))
    (deletes : next.history.deletes = s.history.deletes ∨ ∃ target thread,
      next.history.deletes =
        Function.update s.history.deletes target (s.history.deletes target + 1) ∧
      s.owned (.pass thread) = some target ∧ next.Retired bypass target ∧
      ∀ other, ¬ s.Inspects other target) : Tended bypass next := by
  have inspects : ∀ thread step, next.Inspects thread step ↔ s.Inspects thread step := by
    intro thread step
    rw [State.Inspects, State.Inspects, call]
  have stays : ∀ step, s.Retired bypass step → next.Retired bypass step := by
    intro step retired
    refine retired.stays (used step) fun isIn => ?_
    rcases window step isIn with wasIn | ⟨thread, here⟩
    · exact .inl wasIn
    · exact .inr (.inl ⟨.pass thread, here⟩)
  refine ⟨?_, ?_, ?_, ?_, ?_, ?_⟩
  · intro step deleted
    simp only [inspects]
    rcases deletes with same | ⟨target, thread, changed, here, retired, unseen⟩
    · rw [same] at deleted
      obtain ⟨retired, unseen⟩ := tended.gone step deleted
      exact ⟨stays step retired, unseen⟩
    · by_cases isTarget : step = target
      · subst isTarget
        exact ⟨retired, unseen⟩
      · rw [changed, Function.update_of_ne isTarget] at deleted
        obtain ⟨retired, unseen⟩ := tended.gone step deleted
        exact ⟨stays step retired, unseen⟩
  · intro thread step isCall
    simp only [inspects]
    rw [call] at isCall
    obtain ⟨retired, only⟩ := tended.deleting thread step isCall
    exact ⟨stays step retired, only⟩
  · intro thread step isCall isDone
    rw [call] at isCall
    rcases done step isDone with wasDone | untested
    · exact tended.test thread step isCall wasDone
    · exact untested thread isCall
  · intro thread caller step isCall prepares
    simp only [inspects]
    rw [call] at isCall ⊢
    have here := owned_of_prepares isCall prepares
    have notPass : ∀ other, s.owned (.pass other) ≠ some step := by
      intro other there
      cases owned.located.unique here there
    rw [sched step notPass]
    obtain ⟨notDone, notIn, logs⟩ := tended.preparing thread caller step isCall prepares
    refine ⟨notDone, fun isIn => ?_, logs⟩
    rcases window step isIn with wasIn | ⟨other, there⟩
    · exact notIn wasIn
    · exact notPass other there
  · intro step notCreated
    simp only [inspects]
    rw [created] at notCreated
    obtain ⟨notDeleted, notIn, unseen⟩ := tended.fresh step notCreated
    have notPass : ∀ other, s.owned (.pass other) ≠ some step := by
      intro other there
      rw [owned.created there] at notCreated
      cases notCreated
    refine ⟨?_, fun isIn => ?_, unseen⟩
    · rcases deletes with same | ⟨target, thread, changed, here, -⟩
      · rw [same]
        exact notDeleted
      · have different : step ≠ target := by
          rintro rfl
          exact notPass thread here
        rw [changed, Function.update_of_ne different]
        exact notDeleted
    · rcases window step isIn with wasIn | ⟨other, there⟩
      · exact notIn wasIn
      · exact notPass other there
  · intro step
    rcases deletes with same | ⟨target, thread, changed, here, -⟩
    · rw [same]
      exact tended.once step
    · by_cases isTarget : step = target
      · subst isTarget
        rw [changed, Function.update_self, tended.not_deleted (.inl ⟨.pass thread, here⟩)]
      · rw [changed, Function.update_of_ne isTarget]
        exact tended.once step

omit [DecidableEq Thread] in
theorem created_of_inspects (tended : Tended bypass s) (inspects : s.Inspects thread step) :
    s.created step = true := by
  by_contra notCreated
  exact (tended.fresh step (by simpa using notCreated)).2.2 thread inspects

theorem call (tended : Tended bypass s) (owned : Owned s place) {call : Option (Call Step Item)}
    (isCall : next.call = Function.update s.call thread call) (pass : next.pass = s.pass)
    (created : ∀ step, s.created step = true → next.created step = true)
    (used : ∀ step, s.created step = true → next.Used step → s.Used step)
    (done : ∀ step, s.created step = true → (next.inst step).sched.status = .done →
      (s.inst step).sched.status = .done)
    (suspended : ∀ step, s.created step = true → s.call thread ≠ some (.prepareBegin step) →
      (s.inst step).sched.wasSuspendedSinceReset = true →
      (next.inst step).sched.wasSuspendedSinceReset = true)
    (inspects : ∀ step, call.bind Call.inspects = some step →
      s.history.deletes step = 0 ∧ s.created step = true ∧
        (∀ other, other ≠ thread → s.call other ≠ some (.delete step)) ∧
        (call = some (.test step) → (next.inst step).sched.status ≠ .done) ∧
        (call = some (.delete step) → next.Retired bypass step ∧
          ∀ other, other ≠ thread → ¬ s.Inspects other step) ∧
        ∀ other caller, other ≠ thread → s.call other = some caller →
          caller.prepares = some step → (∃ item, call = some (.log step item)) ∧
            caller ≠ .prepareBegin step ∧ (caller = .preparing step →
              (next.inst step).sched.wasSuspendedSinceReset = true))
    (prepares : ∀ caller step, call = some caller → caller.prepares = some step →
      (next.inst step).sched.status ≠ .done ∧ ¬ s.InWindow step ∧
        ∀ other, other ≠ thread → s.Inspects other step →
          (∃ item, s.call other = some (.log step item)) ∧ caller ≠ .prepareBegin step ∧
          (caller = .preparing step → (next.inst step).sched.wasSuspendedSinceReset = true))
    (deletes : next.history.deletes = s.history.deletes ∨ ∃ target,
      s.call thread = some (.delete target) ∧ call = none ∧
      next.history.deletes =
        Function.update s.history.deletes target (s.history.deletes target + 1)) :
    Tended bypass next := by
  have windows : ∀ step, next.InWindow step ↔ s.InWindow step := by
    intro step
    simp only [State.InWindow, State.windowAt, pass]
  have here : next.call thread = call := by rw [isCall, Function.update_self]
  have elsewhere : ∀ other, other ≠ thread → next.call other = s.call other := by
    intro other different
    rw [isCall, Function.update_of_ne different]
  have inspectsElsewhere : ∀ other step, other ≠ thread →
      (next.Inspects other step ↔ s.Inspects other step) := by
    intro other step different
    rw [State.Inspects, State.Inspects, elsewhere other different]
  have inspectsHere : ∀ step, next.Inspects thread step ↔ call.bind Call.inspects = some step := by
    intro step
    rw [State.Inspects, here]
  have stays : ∀ step, s.created step = true → s.Retired bypass step →
      next.Retired bypass step := fun step isCreated retired =>
    retired.stays (used step isCreated) fun isIn => .inl ((windows step).mp isIn)
  have isCreated : ∀ step, 0 < s.history.deletes step → s.created step = true := by
    intro step deleted
    by_contra notCreated
    have notDeleted := (tended.fresh step (by simpa using notCreated)).1
    omega
  have deleted : ∀ target, s.call thread = some (.delete target) →
      s.history.deletes target = 0 ∧ s.created target = true ∧ next.Retired bypass target := by
    intro target isDelete
    have looks : s.Inspects thread target := by simp [State.Inspects, isDelete, Call.inspects]
    have wasCreated := tended.created_of_inspects looks
    refine ⟨?_, wasCreated, stays target wasCreated (tended.deleting thread target isDelete).1⟩
    by_contra wasDeleted
    exact (tended.gone target (Nat.pos_of_ne_zero wasDeleted)).2 thread looks
  refine ⟨?_, ?_, ?_, ?_, ?_, ?_⟩
  · intro step isDeleted
    have before : 0 < s.history.deletes step → next.Retired bypass step ∧
        ∀ other, ¬ next.Inspects other step := by
      intro wasDeleted
      obtain ⟨retired, unseen⟩ := tended.gone step wasDeleted
      refine ⟨stays step (isCreated step wasDeleted) retired, fun other looks => ?_⟩
      by_cases same : other = thread
      · subst same
        have notDeleted := (inspects step ((inspectsHere step).mp looks)).1
        omega
      · exact unseen other ((inspectsElsewhere other step same).mp looks)
    rcases deletes with same | ⟨target, isDelete, ended, changed⟩
    · exact before (same ▸ isDeleted)
    · by_cases isTarget : step = target
      · subst isTarget
        refine ⟨(deleted step isDelete).2.2, fun other looks => ?_⟩
        by_cases same : other = thread
        · subst same
          rw [inspectsHere, ended] at looks
          cases looks
        · exact same ((tended.deleting thread step isDelete).2 other
            ((inspectsElsewhere other step same).mp looks))
      · rw [changed, Function.update_of_ne isTarget] at isDeleted
        exact before isDeleted
  · intro at_ step isDelete
    by_cases same : at_ = thread
    · subst same
      rw [here] at isDelete
      obtain ⟨-, -, -, -, retires, -⟩ := inspects step (by simp [isDelete, Call.inspects])
      obtain ⟨retired, unseen⟩ := retires isDelete
      refine ⟨retired, fun other looks => ?_⟩
      by_contra different
      exact unseen other different ((inspectsElsewhere other step different).mp looks)
    · rw [elsewhere at_ same] at isDelete
      obtain ⟨retired, only⟩ := tended.deleting at_ step isDelete
      have looks : s.Inspects at_ step := by simp [State.Inspects, isDelete, Call.inspects]
      refine ⟨stays step (tended.created_of_inspects looks) retired, fun other isLooking => ?_⟩
      by_cases isThread : other = thread
      · subst isThread
        exact absurd isDelete ((inspects step ((inspectsHere step).mp isLooking)).2.2.1 at_ same)
      · exact only other ((inspectsElsewhere other step isThread).mp isLooking)
  · intro at_ step isTest
    by_cases same : at_ = thread
    · subst same
      rw [here] at isTest
      exact (inspects step (by simp [isTest, Call.inspects])).2.2.2.1 isTest
    · rw [elsewhere at_ same] at isTest
      have looks : s.Inspects at_ step := by simp [State.Inspects, isTest, Call.inspects]
      exact fun isDone => tended.test at_ step isTest
        (done step (tended.created_of_inspects looks) isDone)
  · intro at_ caller step isCaller isPreparing
    rw [windows]
    by_cases same : at_ = thread
    · subst same
      rw [here] at isCaller
      obtain ⟨notDone, notIn, logs⟩ := prepares caller step isCaller isPreparing
      refine ⟨notDone, notIn, fun other looks => ?_⟩
      by_cases isThread : other = at_
      · subst isThread
        rw [inspectsHere, isCaller] at looks
        cases caller <;> cases isPreparing <;> cases looks
      · rw [elsewhere other isThread]
        exact logs other isThread ((inspectsElsewhere other step isThread).mp looks)
    · rw [elsewhere at_ same] at isCaller
      have isAt := owned_of_prepares isCaller isPreparing
      have wasCreated := owned.created isAt
      obtain ⟨notDone, notIn, logs⟩ := tended.preparing at_ caller step isCaller isPreparing
      refine ⟨fun isDone => notDone (done step wasCreated isDone), notIn, fun other looks => ?_⟩
      by_cases isThread : other = thread
      · subst isThread
        rw [here]
        exact (inspects step ((inspectsHere step).mp looks)).2.2.2.2.2 at_ caller same isCaller
          isPreparing
      · rw [elsewhere other isThread]
        obtain ⟨isLog, notBegin, wasSuspended⟩ :=
          logs other ((inspectsElsewhere other step isThread).mp looks)
        refine ⟨isLog, notBegin, fun isPreparing => suspended step wasCreated ?_
          (wasSuspended isPreparing)⟩
        intro begins
        cases owned.located.unique isAt (owned_of_prepares begins rfl)
        exact same rfl
  · intro step notCreated
    have before : s.created step = false := by
      by_contra isCreated
      rw [created step (by simpa using isCreated)] at notCreated
      cases notCreated
    obtain ⟨notDeleted, notIn, unseen⟩ := tended.fresh step before
    rw [windows]
    refine ⟨?_, notIn, fun other looks => ?_⟩
    · rcases deletes with same | ⟨target, isDelete, -, changed⟩
      · rw [same]
        exact notDeleted
      · have different : step ≠ target := by
          rintro rfl
          rw [(deleted step isDelete).2.1] at before
          cases before
        rw [changed, Function.update_of_ne different]
        exact notDeleted
    · by_cases same : other = thread
      · subst same
        rw [(inspects step ((inspectsHere step).mp looks)).2.1] at before
        cases before
      · exact unseen other ((inspectsElsewhere other step same).mp looks)
  · intro step
    rcases deletes with same | ⟨target, isDelete, -, changed⟩
    · rw [same]
      exact tended.once step
    · by_cases isTarget : step = target
      · subst isTarget
        rw [changed, Function.update_self, (deleted step isDelete).1]
      · rw [changed, Function.update_of_ne isTarget]
        exact tended.once step

theorem quiet (tended : Tended bypass s) (owned : Owned s place)
    {call : Option (Call Step Item)} (isCall : next.call = Function.update s.call thread call)
    (pass : next.pass = s.pass) (created : next.created = s.created)
    (used : ∀ step, next.Used step → s.Used step)
    (done : ∀ step, (next.inst step).sched.status = .done → (s.inst step).sched.status = .done)
    (suspended : ∀ step, (s.inst step).sched.wasSuspendedSinceReset = true →
      (next.inst step).sched.wasSuspendedSinceReset = true)
    (prepares : ∀ caller, call = some caller → caller.prepares = none)
    (logs : ∀ caller step, call = some caller → caller.inspects = some step →
      (∃ item, caller = .log step item) ∧ s.Used step ∧
        ∀ other caller, other ≠ thread → s.call other = some caller →
          caller.prepares = some step → caller ≠ .prepareBegin step ∧
            (caller = .preparing step → (next.inst step).sched.wasSuspendedSinceReset = true))
    (deletes : next.history.deletes = s.history.deletes) : Tended bypass next := by
  refine tended.call owned isCall pass (fun _ => created ▸ id) (fun step _ => used step)
    (fun step _ => done step) (fun step _ _ => suspended step) ?_ ?_ (.inl deletes)
  · intro step inspects
    obtain ⟨caller, rfl, isInspected⟩ := Option.bind_eq_some_iff.mp inspects
    obtain ⟨⟨item, rfl⟩, isUsed, others⟩ := logs caller step rfl isInspected
    refine ⟨tended.not_deleted isUsed, owned.created_of_used isUsed, ?_, ?_, ?_, ?_⟩
    · intro other _ isDelete
      exact (tended.deleting other step isDelete).1.1 isUsed
    · exact fun impossible => by cases impossible
    · exact fun impossible => by cases impossible
    · intro other caller different isCaller isPreparing
      exact ⟨⟨item, rfl⟩, others other caller different isCaller isPreparing⟩
  · intro caller step isNext isPreparing
    rw [prepares caller isNext] at isPreparing
    cases isPreparing

end Tended

theorem CallStep.used_back {affected : Option Step} {call : Option (Call Step Item)}
    (callStep : CallStep s next thread affected call)
    (owns : ∀ step, call.bind Call.owns = some step → s.Used step)
    (members : ∀ step, 0 < next.memberships step → s.Used step) {other : Step}
    (used : next.Used other) : s.Used other := by
  rcases used with ⟨p, here⟩ | member
  · by_cases isCall : p = .call thread
    · subst isCall
      rw [callStep.owned_call] at here
      exact owns other here
    · rw [callStep.owned_other p isCall] at here
      exact .inl ⟨p, here⟩
  · exact members other member

section Tend

variable (tended : Tended bypass s) (sound : Sound bypass s place)

include tended sound

theorem tended_advance (found : s.pass thread = some ⟨step, ticket, phase⟩)
    (advance : Advance s next thread step ticket phase nextPhase)
    (unseen : ∀ target, Pass.destroys ⟨step, ticket, phase⟩ = some target →
      ∀ other, ¬ s.Inspects other target) : Tended bypass next := by
  refine tended.pass sound.owned advance.passStep.call advance.passStep.created
    (fun _ => advance.used_back found) (fun _ => advance.window_back found) ?_ ?_ ?_
  · intro other notPass
    by_cases same : other = step
    · subst same
      refine advance.sched ?_
      by_contra owns
      simp only [Bool.not_eq_false] at owns
      exact notPass thread (by simp [State.owned, found, owns])
    · exact advance.passStep.sched other same
  · intro other isDone
    left
    by_cases same : other = step
    · subst same
      rwa [advance.status] at isDone
    · rwa [advance.passStep.sched other same] at isDone
  · cases isTarget : Pass.destroys ⟨step, ticket, phase⟩ with
    | none =>
        left
        rw [advance.deletes, isTarget]
    | some target =>
        obtain ⟨gone, closed⟩ := advance.ends (isTarget ▸ rfl)
        have isStep : target = step ∧ phase.owns = true := by
          cases phase <;> cases isTarget
          exact ⟨rfl, rfl⟩
        obtain ⟨rfl, owns⟩ := isStep
        have here : s.owned (.pass thread) = some target := by simp [State.owned, found, owns]
        have isPlace := (sound.owned.located _ _).mp here
        have fits := sound.owned.at_ here
        have isDeleting : phase.mode = .succeeded := by
          cases phase <;> cases isTarget
          rfl
        simp only [State.mode, found, Option.map_some, Option.getD_some, isDeleting,
          Mode.Fits] at fits
        refine .inr ⟨target, thread, ?_, here, ⟨?_, ?_⟩, unseen target isTarget⟩
        · rw [advance.deletes, isTarget]
        · rintro (⟨p, isAt⟩ | member)
          · by_cases isPass : p = .pass thread
            · subst isPass
              simp [State.owned, advance.passStep.pass, gone] at isAt
            · by_cases isSucc : p = .succ thread
              · subst isSucc
                have there : s.owned (.succ thread) = some target := by
                  rw [← isAt, State.owned, State.owned, advance.successor]
                cases sound.owned.located.unique here there
              · rw [advance.passStep.owned_other p isPass isSucc] at isAt
                exact isPass (sound.owned.located.unique isAt here)
          · rw [State.memberships, advance.waiting, ← State.memberships, fits.1] at member
            exact absurd member (lt_irrefl 0)
        · rintro isBypass ⟨at_, isIn⟩
          by_cases same : at_ = thread
          · subst same
            simp [State.windowAt, advance.passStep.pass, closed] at isIn
          · rw [advance.passStep.windowAt_other same] at isIn
            exact sound.pointers.window isBypass target ⟨at_, isIn⟩ ⟨thread, isPlace⟩

theorem tended_setPass {pass : Option (Pass Step)} (inst : next.inst = s.inst)
    (created : next.created = s.created) (waiting : next.waiting = s.waiting)
    (call : next.call = s.call)
    (queue : ∀ number step, next.queue number = some step → s.queue number = some step)
    (isPass : next.pass = Function.update s.pass thread pass)
    (used : ∀ after, pass = some after → s.Used after.step ∧ after.phase = .begin)
    (successor : next.successor thread = none)
    (deletes : next.history.deletes = s.history.deletes) : Tended bypass next := by
  have succStep : ∀ other, next.succStep other = s.succStep other := by
    intro other
    rw [State.succStep, State.succStep, inst]
  refine tended.pass sound.owned call created ?_ ?_ (fun _ _ => by rw [inst])
    (fun _ isDone => .inl (by rwa [inst] at isDone)) (.inl deletes)
  · rintro step (⟨p, here⟩ | member)
    · cases p with
      | queue number => exact .inl ⟨.queue number, queue number step here⟩
      | call other =>
          rw [State.owned, call] at here
          exact .inl ⟨.call other, here⟩
      | pass other =>
          by_cases same : other = thread
          · subst same
            simp only [State.owned, isPass, Function.update_self] at here
            obtain ⟨after, isAfter, isStep⟩ := Option.bind_eq_some_iff.mp here
            obtain ⟨isUsed, isBegin⟩ := used after isAfter
            simp only [isBegin, Phase.owns, if_true, Option.some.injEq] at isStep
            exact isStep ▸ isUsed
          · simp only [State.owned, isPass, Function.update_of_ne same] at here
            exact .inl ⟨.pass other, here⟩
      | succ other =>
          by_cases same : other = thread
          · subst same
            simp [State.owned, successor] at here
          · rw [State.owned, successor_congr isPass succStep other same] at here
            exact .inl ⟨.succ other, here⟩
    · right
      rwa [State.memberships, waiting] at member
  · rintro step ⟨other, isIn⟩
    by_cases same : other = thread
    · subst same
      simp only [State.windowAt, isPass, Function.update_self] at isIn
      obtain ⟨after, isAfter, isStep⟩ := Option.bind_eq_some_iff.mp isIn
      rw [(used after isAfter).2] at isStep
      cases isStep
    · simp only [State.windowAt, isPass, Function.update_of_ne same] at isIn
      exact .inl ⟨other, isIn⟩

theorem tended_next {newS : Option (Step × Nat)}
    (found : s.pass thread = some ⟨step, ticket, .next newS⟩)
    (allowed : bypass = true → ∀ succ, newS = some succ → succ.1 ≠ step → ¬ s.InWindow succ.1)
    (advanced : s.advancePass bypass thread ⟨step, ticket, .next newS⟩ = some next) :
    Tended bypass next := by
  have ended : Tended bypass (s.setPass thread none) := by
    refine tended_setPass tended sound rfl rfl rfl rfl (fun _ _ => id) rfl ?_ ?_ rfl
    · exact fun _ impossible => by cases impossible
    · simp [State.successor, State.setPass]
  cases newS with
  | none =>
      cases advanced
      exact ended
  | some succ =>
      simp only [State.advancePass] at advanced
      split at advanced
      · cases advanced
        exact ended
      · rename_i different
        cases advanced
        have isSuccessor : s.successor thread = some succ := by
          simp [State.successor, found, Pass.successor, Phase.newS, different]
        have here : s.owned (.succ thread) = some succ.1 := by simp [State.owned, isSuccessor]
        have noCall := sound.pointers.no_call found (by simp [State.current, found])
        have started : Sound bypass (s.start thread succ.1 succ.2)
            (Function.update place succ.1 (some (.pass thread))) ∧
              (s.start thread succ.1 succ.2).successor thread = none :=
          sound.start (.inr rfl) here (by simp [State.owned, found, Phase.owns]) noCall
            (fun isBypass => allowed isBypass succ rfl different)
            (by simp [State.windowAt, found, Phase.inWindow]) (.inr rfl) rfl rfl rfl rfl
            (fun _ => by rw [if_neg (by simp)]; rfl) rfl
        refine tended_setPass tended sound rfl rfl rfl rfl (fun _ _ => id) rfl ?_ started.2 rfl
        rintro after ⟨⟩
        exact ⟨.inl ⟨_, here⟩, rfl⟩

theorem tended_pop (noPass : s.pass thread = none) (noCall : s.call thread = none)
    (queued : s.queue ticket = some step) (allowed : bypass = true → ¬ s.InWindow step) :
    Tended bypass
      ({ s with queue := Function.update s.queue ticket none }.start thread step ticket) := by
  have queues : ∀ number,
      ({ s with queue := Function.update s.queue ticket none }.start thread step ticket).queue
        number = if (Place.queue ticket : Place Thread) = .queue number then none
          else s.queue number := by
    intro number
    by_cases same : number = ticket
    · simp [State.start, State.setPass, same]
    · simp [State.start, State.setPass, same, Ne.symm same]
  have here : s.owned (.queue ticket) = some step := queued
  have started : Sound bypass
      ({ s with queue := Function.update s.queue ticket none }.start thread step ticket)
      (Function.update place step (some (.pass thread))) ∧
        ({ s with queue := Function.update s.queue ticket none }.start thread step
          ticket).successor thread = none :=
    sound.start (.inl ⟨ticket, rfl⟩) here (by simp [State.owned, noPass]) noCall allowed
      (by simp [State.windowAt, noPass])
      (.inl (by simp [State.owned, State.successor, noPass])) rfl rfl rfl rfl queues rfl
  refine tended_setPass tended sound rfl rfl rfl rfl ?_ rfl ?_ started.2 rfl
  · intro number other isQueued
    rw [queues, Option.ite_none_left_eq_some] at isQueued
    exact isQueued.2
  · rintro after ⟨⟩
    exact ⟨.inl ⟨_, here⟩, rfl⟩

theorem tended_return {outcome : Outcome}
    (found : s.pass thread = some ⟨step, ticket, .executing⟩)
    (untested : outcome = .success → ∀ other, s.call other ≠ some (.test step))
    (returned : s.return_ thread step ticket outcome = some next) : Tended bypass next := by
  have here : s.owned (.pass thread) = some step := by simp [State.owned, found, Phase.owns]
  have returns : ∀ (change : Schedulable → Schedulable) success,
      (((s.modify step change).inst step).sched.status = .done →
        (s.inst step).sched.status = .done ∨ ∀ other, s.call other ≠ some (.test step)) →
      Tended bypass ((s.modify step change).setPass thread
        (some ⟨step, ticket, .returned success⟩)) := by
    intro change success done
    have passStep := passStep_modify s thread step change (some ⟨step, ticket, .returned success⟩)
    have nextFound : ((s.modify step change).setPass thread
        (some ⟨step, ticket, .returned success⟩)).pass thread =
          some ⟨step, ticket, .returned success⟩ := by
      simp [State.setPass]
    have successor := sound.pointers.successor_stays found nextFound rfl
      (fun other => by rw [setPass_succStep, modify_succStep])
      fun _ impossible => by cases impossible
    refine tended.pass sound.owned rfl rfl ?_ ?_ ?_ ?_ (.inl rfl)
    · rintro other (⟨p, isAt⟩ | member)
      · by_cases isPass : p = .pass thread
        · subst isPass
          simp only [State.owned, nextFound, Option.bind_some, Phase.owns, if_true] at isAt
          exact .inl ⟨.pass thread, here.trans isAt⟩
        · by_cases isSucc : p = .succ thread
          · subst isSucc
            rw [State.owned, successor] at isAt
            exact .inl ⟨.succ thread, isAt⟩
          · rw [passStep.owned_other p isPass isSucc] at isAt
            exact .inl ⟨p, isAt⟩
      · exact .inr member
    · rintro other ⟨at_, isIn⟩
      by_cases same : at_ = thread
      · subst same
        simp [State.windowAt, nextFound, Phase.inWindow] at isIn
      · rw [passStep.windowAt_other same] at isIn
        exact .inl ⟨at_, isIn⟩
    · intro other notPass
      refine passStep.sched other ?_
      rintro rfl
      exact notPass thread here
    · intro other isDone
      by_cases same : other = step
      · subst same
        exact done isDone
      · rw [passStep.sched other same] at isDone
        exact .inl isDone
  have unchanged := fun success => returns id success fun isDone =>
    .inl (by rwa [modify_id] at isDone)
  simp only [modify_id] at unchanged
  cases outcome with
  | unfinished =>
      cases returned
      exact unchanged false
  | success =>
      simp only [State.return_, Option.ite_none_left_eq_some] at returned
      obtain ⟨-, isNext⟩ := returned
      cases isNext
      exact returns _ true fun _ => .inr (untested rfl)
  | canceled =>
      simp only [State.return_, Option.ite_none_left_eq_some] at returned
      obtain ⟨-, isNext⟩ := returned
      cases isNext
      exact unchanged true

omit [DecidableEq Thread] sound in
/-- A get fails, in `execute` or in the environment, or a dependency is missing in
`prepare`. -/
theorem tended_waiting {waiting : List (Item × Option Step)} {inst : Step → Instance Step}
    (succStep : ∀ step, (inst step).succStep = (s.inst step).succStep)
    (members : ∀ step, 0 < waiting.countP (fun entry => entry.2 = some step) → s.Used step)
    (status : ∀ step, (inst step).sched.status = (s.inst step).sched.status)
    (suspended : ∀ step, (s.inst step).sched.wasSuspendedSinceReset = true →
      (inst step).sched.wasSuspendedSinceReset = true) :
    Tended bypass { s with inst := inst, waiting := waiting } := by
  have used : ∀ step, ({ s with inst := inst, waiting := waiting } :
      State Step Item Thread).Used step → s.Used step := by
    rintro step (⟨p, here⟩ | member)
    · refine .inl ⟨p, ?_⟩
      rw [← here]
      have same : ({ s with inst := inst, waiting := waiting } :
          State Step Item Thread).succStep = s.succStep := funext succStep
      cases p <;> simp only [State.owned, State.successor, same]
    · exact members step member
  have stays : ∀ step, s.Retired bypass step →
      ({ s with inst := inst, waiting := waiting } : State Step Item Thread).Retired bypass step :=
    fun step retired => retired.stays (used step) .inl
  refine ⟨fun step deleted => ?_, fun thread step isCall => ?_, fun thread step isCall => ?_,
    fun thread caller step isCall prepares => ?_, tended.fresh, tended.once⟩
  · obtain ⟨retired, unseen⟩ := tended.gone step deleted
    exact ⟨stays step retired, unseen⟩
  · obtain ⟨retired, only⟩ := tended.deleting thread step isCall
    exact ⟨stays step retired, only⟩
  · rw [status]
    exact tended.test thread step isCall
  · obtain ⟨notDone, notIn, logs⟩ := tended.preparing thread caller step isCall prepares
    refine ⟨by rwa [status], notIn, fun other looks => ?_⟩
    obtain ⟨isLog, notBegin, wasSuspended⟩ := logs other looks
    exact ⟨isLog, notBegin, fun isPreparing => suspended step (wasSuspended isPreparing)⟩

omit [DecidableEq Thread] sound in
theorem tended_suspend (used : s.Used step) (item : Item) : Tended bypass (s.suspend step item) := by
  refine tended_waiting tended ?_ ?_ ?_ ?_
  · intro other
    exact congrFun (modify_succStep Schedulable.suspend) other
  · intro other member
    by_cases same : other = step
    · exact same ▸ used
    · rw [List.countP_cons_of_neg (by simpa using Ne.symm same)] at member
      exact .inr member
  · intro other
    by_cases same : other = step
    · subst same
      rw [modify_sched_self]
      rfl
    · rw [modify_sched_other same]
  · intro other wasSuspended
    by_cases same : other = step
    · subst same
      rw [modify_sched_self]
      rfl
    · rwa [modify_sched_other same]

omit [DecidableEq Thread] tended in
theorem other_call (here : s.owned (.call thread) = some step) {other : Thread}
    {caller : Call Step Item} (different : other ≠ thread) (found : s.call other = some caller) :
    caller.prepares ≠ some step := by
  intro prepares
  cases sound.owned.located.unique here (owned_of_prepares found prepares)
  exact different rfl

theorem tended_callStep {affected : Option Step} {call : Option (Call Step Item)}
    (callStep : CallStep s next thread affected call)
    (members : ∀ step, 0 < next.memberships step → s.Used step)
    (done : ∀ step, affected = some step → (next.inst step).sched.status = .done →
      (s.inst step).sched.status = .done)
    (suspended : ∀ step, affected = some step →
      (s.inst step).sched.wasSuspendedSinceReset = true →
      (next.inst step).sched.wasSuspendedSinceReset = true)
    (owns : ∀ step, call.bind Call.owns = some step → s.Used step)
    (prepares : ∀ caller, call = some caller → caller.prepares = none)
    (logs : ∀ caller step, call = some caller → caller.inspects = some step →
      (∃ item, caller = .log step item) ∧ s.Used step ∧
        ∀ other caller, other ≠ thread → s.call other = some caller →
          caller.prepares = some step → caller ≠ .prepareBegin step ∧
            (caller = .preparing step → (s.inst step).sched.wasSuspendedSinceReset = true))
    (deletes : next.history.deletes = s.history.deletes) : Tended bypass next := by
  have allSuspended : ∀ step, (s.inst step).sched.wasSuspendedSinceReset = true →
      (next.inst step).sched.wasSuspendedSinceReset = true := by
    intro step wasSuspended
    by_cases isAffected : affected = some step
    · exact suspended step isAffected wasSuspended
    · rwa [callStep.sched step isAffected]
  refine tended.quiet sound.owned callStep.call callStep.pass callStep.created
    (fun _ => callStep.used_back owns members) ?_ allSuspended prepares ?_ deletes
  · intro step isDone
    by_cases isAffected : affected = some step
    · exact done step isAffected isDone
    · rwa [callStep.sched step isAffected] at isDone
  · intro caller step isNext isInspected
    obtain ⟨isLog, used, others⟩ := logs caller step isNext isInspected
    refine ⟨isLog, used, fun other caller different found prepares => ?_⟩
    obtain ⟨notBegin, wasSuspended⟩ := others other caller different found prepares
    exact ⟨notBegin, fun isPreparing => allSuspended step (wasSuspended isPreparing)⟩

theorem tended_setCall {call : Option (Call Step Item)}
    (owns : ∀ step, call.bind Call.owns = some step → s.Used step)
    (prepares : ∀ caller, call = some caller → caller.prepares = none)
    (inspects : ∀ caller, call = some caller → caller.inspects = none) :
    Tended bypass (s.setCall thread call) := by
  refine tended_callStep tended sound (callStep_setCall s thread call) (fun _ => .inr)
    (fun _ impossible => by cases impossible) (fun _ impossible => by cases impossible) owns
    prepares ?_ rfl
  intro caller step isNext isInspected
  rw [inspects caller isNext] at isInspected
  cases isInspected

theorem tended_ended : Tended bypass (s.setCall thread none) :=
  tended_setCall tended sound (fun _ impossible => by cases impossible)
    (fun _ impossible => by cases impossible) fun _ impossible => by cases impossible

theorem tended_modify {before : Call Step Item} {call : Option (Call Step Item)}
    (change : Schedulable → Schedulable) (found : s.call thread = some before)
    (owns : before.owns = some step)
    (done : (change (s.inst step).sched).status = .done → (s.inst step).sched.status = .done)
    (suspended : (s.inst step).sched.wasSuspendedSinceReset = true →
      (change (s.inst step).sched).wasSuspendedSinceReset = true)
    (nextOwns : ∀ other, call.bind Call.owns = some other → other = step)
    (prepares : ∀ caller, call = some caller → caller.prepares = none)
    (logs : ∀ caller other, call = some caller → caller.inspects = some other →
      (∃ item, caller = .log other item) ∧ other = step) :
    Tended bypass ((s.modify step change).setCall thread call) := by
  have here : s.owned (.call thread) = some step := by
    simp only [State.owned, found, Option.bind_some, owns]
  have used : s.Used step := .inl ⟨_, here⟩
  refine tended_callStep tended sound (callStep_modify s thread step change call)
    (fun _ => .inr) ?_ ?_ ?_ prepares ?_ rfl
  · rintro other ⟨⟩ isDone
    refine done ?_
    rwa [← modify_sched_self change]
  · rintro other ⟨⟩ wasSuspended
    change ((s.modify step change).inst step).sched.wasSuspendedSinceReset = true
    rw [modify_sched_self]
    exact suspended wasSuspended
  · intro other isNext
    exact nextOwns other isNext ▸ used
  · intro caller other isNext isInspected
    obtain ⟨isLog, rfl⟩ := logs caller other isNext isInspected
    refine ⟨isLog, used, fun at_ caller different isCaller prepares => ?_⟩
    exact absurd prepares (other_call sound here different isCaller)

omit [DecidableEq Step] [DecidableEq Thread] tended sound in
theorem afterSchedule_log {after : Option Item} {caller : Call Step Item} {target : Step}
    (isNext : afterSchedule step after = some caller)
    (isInspected : caller.inspects = some target) :
    (∃ item, caller = .log target item) ∧ target = step := by
  cases after with
  | none => cases isNext
  | some item =>
      cases isNext
      cases isInspected
      exact ⟨⟨item, rfl⟩, rfl⟩

omit [DecidableEq Step] [DecidableEq Thread] tended sound in
theorem afterSchedule_quiet (step : Step) (after : Option Item) :
    (afterSchedule step after).bind Call.owns = none ∧
      ∀ caller, afterSchedule step after = some caller → caller.prepares = none := by
  cases after with
  | none => exact ⟨rfl, fun _ impossible => by cases impossible⟩
  | some item =>
      refine ⟨rfl, ?_⟩
      rintro caller ⟨⟩
      rfl

omit [DecidableEq Thread] tended in
theorem tended_logs {after : Option Item} (here : s.owned (.call thread) = some step) (caller)
    (target) (isNext : afterSchedule step after = some caller)
    (isInspected : caller.inspects = some target) :
    (∃ item, caller = .log target item) ∧ s.Used target ∧
      ∀ other caller, other ≠ thread → s.call other = some caller →
        caller.prepares = some target → caller ≠ .prepareBegin target ∧
          (caller = .preparing target →
            (s.inst target).sched.wasSuspendedSinceReset = true) := by
  obtain ⟨isLog, rfl⟩ := afterSchedule_log isNext isInspected
  refine ⟨isLog, .inl ⟨_, here⟩, fun other caller different isCaller prepares => ?_⟩
  exact absurd prepares (other_call sound here different isCaller)

theorem tended_resume {item : Item} [DecidableEq Item]
    (member : (item, some step) ∈ s.waiting) :
    Tended bypass ((s.unsuspend step item).setCall thread
      (if (s.inst step).sched.unsuspend.2 then some (.count step (some item))
        else some (.log step item))) := by
  have isMember : 0 < s.memberships step := List.countP_pos_iff.mpr ⟨_, member, by simp⟩
  have fewer : ∀ other, (s.unsuspend step item).memberships other ≤ s.memberships other :=
    fun _ => List.erase_sublist.countP_le
  have same : ∀ other, some step ≠ some other →
      (s.unsuspend step item).memberships other = s.memberships other := by
    intro other different
    change (s.waiting.erase (item, some step)).countP _ = s.waiting.countP _
    rw [(List.perm_cons_erase member).countP_eq]
    simp [different]
  have callStep : ∀ call, CallStep s ((s.unsuspend step item).setCall thread call) thread
      (some step) call := fun call =>
    ⟨rfl, rfl, rfl, rfl,
      (callStep_modify s thread step (fun sched => sched.unsuspend.1) call).sched, same,
      (callStep_modify s thread step (fun sched => sched.unsuspend.1) call).succStep⟩
  have sched : ((s.unsuspend step item).inst step).sched = (s.inst step).sched.unsuspend.1 :=
    modify_sched_self fun sched => sched.unsuspend.1
  refine tended_callStep tended sound (callStep _) ?_ ?_ ?_ ?_ ?_ ?_ rfl
  · intro other stillMember
    exact .inr (lt_of_lt_of_le stillMember (fewer other))
  · rintro other ⟨⟩ isDone
    change ((s.unsuspend step item).inst step).sched.status = _ at isDone
    rwa [sched] at isDone
  · rintro other ⟨⟩ wasSuspended
    change ((s.unsuspend step item).inst step).sched.wasSuspendedSinceReset = _
    rwa [sched]
  · intro other owns
    split at owns <;> cases owns
    exact .inr isMember
  · intro caller isNext
    split at isNext <;> cases isNext <;> rfl
  · intro caller other isNext isInspected
    split at isNext
    · cases isNext
      cases isInspected
    · cases isNext
      cases isInspected
      refine ⟨⟨item, rfl⟩, .inr isMember, fun at_ caller different isCaller prepares => ?_⟩
      have fits := sound.owned.at_ (owned_of_prepares isCaller prepares)
      simp only [State.mode, isCaller, Option.map_some, Option.getD_some] at fits
      cases caller <;> cases prepares
      · exact absurd fits.1 (by omega)
      · refine ⟨by rintro ⟨⟩, fun _ => ?_⟩
        by_contra notSuspended
        have noMember := fits.2 (by simpa using notSuspended)
        omega
      · exact ⟨by rintro ⟨⟩, by rintro ⟨⟩⟩

theorem tended_advanceCall [DecidableEq Item] {call : Call Step Item}
    (found : s.call thread = some call) (advanced : s.advanceCall bypass thread call = some next) :
    Tended bypass next := by
  cases call with
  | resume item =>
      simp only [State.advanceCall] at advanced
      split at advanced
      · cases advanced
        exact tended_ended tended sound
      · rename_i other isFound
        cases advanced
        have isItem : other = item := by simpa using List.find?_some isFound
        subst isItem
        refine tended_waiting tended (fun _ => rfl) ?_ (fun _ => rfl) fun _ => id
        intro step member
        refine .inr (lt_of_lt_of_le member ?_)
        exact List.erase_sublist.countP_le
      · rename_i other step isFound
        cases advanced
        have isItem : other = item := by simpa using List.find?_some isFound
        subst isItem
        exact tended_resume tended sound (List.mem_of_find?_eq_some isFound)
  | log step item =>
      cases advanced
      refine tended_setCall tended sound (fun _ impossible => by cases impossible) ?_ ?_ <;>
        · rintro caller ⟨⟩
          rfl
  | prepareBegin step =>
      cases advanced
      have here := owned_of_prepares found rfl
      obtain ⟨notDone, notIn, logs⟩ := tended.preparing thread _ step found rfl
      have callStep := callStep_modify s thread step
        (fun sched => sched.suspend.resetWasSuspended) (some (.preparing step))
      have status : ((s.modify step fun sched => sched.suspend.resetWasSuspended).inst
          step).sched.status = (s.inst step).sched.status := by
        rw [modify_sched_self]
        rfl
      refine tended.call sound.owned rfl rfl (fun _ => id) ?_ ?_ ?_
        (fun _ impossible => by cases impossible) ?_ (.inl rfl)
      · intro other _
        refine callStep.used_back ?_ fun _ => .inr
        rintro target ⟨⟩
        exact .inl ⟨_, here⟩
      · intro other _ isDone
        by_cases same : other = step
        · subst same
          exact status ▸ isDone
        · rwa [callStep.sched_other other same] at isDone
      · intro other _ notBegin wasSuspended
        by_cases same : other = step
        · subst same
          exact absurd found notBegin
        · rwa [callStep.sched_other other same]
      · rintro caller other ⟨⟩ prepares
        cases prepares
        refine ⟨fun isDone => notDone (status ▸ isDone), notIn, fun at_ _ looks => ?_⟩
        exact absurd rfl (logs at_ looks).2.1
  | preparing step => cases advanced
  | prepareEnd step =>
      cases advanced
      have here := owned_of_prepares found rfl
      obtain ⟨notDone, notIn, logs⟩ := tended.preparing thread _ step found rfl
      split
      · refine tended_modify tended sound _ found rfl id id ?_ ?_ ?_
        · rintro other ⟨⟩
          rfl
        · rintro caller ⟨⟩
          rfl
        · rintro caller other ⟨⟩ isInspected
          cases isInspected
      · have callStep := callStep_modify s thread step (fun sched => sched.unsuspend.1)
          (some (.test step))
        have status : ((s.modify step fun sched => sched.unsuspend.1).inst step).sched.status =
            (s.inst step).sched.status := by
          rw [modify_sched_self]
          rfl
        have suspended : ((s.modify step fun sched =>
            sched.unsuspend.1).inst step).sched.wasSuspendedSinceReset =
              (s.inst step).sched.wasSuspendedSinceReset := by
          rw [modify_sched_self]
          rfl
        refine tended.call sound.owned rfl rfl (fun _ => id) ?_ ?_ ?_ ?_ ?_ (.inl rfl)
        · exact fun other _ =>
            callStep.used_back (fun _ impossible => by cases impossible) fun _ => .inr
        · intro other _ isDone
          by_cases same : other = step
          · subst same
            exact status ▸ isDone
          · rwa [callStep.sched_other other same] at isDone
        · intro other _ _ wasSuspended
          by_cases same : other = step
          · subst same
            exact suspended ▸ wasSuspended
          · rwa [callStep.sched_other other same]
        · rintro other ⟨⟩
          refine ⟨tended.not_deleted (.inl ⟨_, here⟩), sound.owned.created here, ?_, ?_,
            (fun impossible => by cases impossible), ?_⟩
          · intro at_ _ isDelete
            exact (tended.deleting at_ step isDelete).1.1 (.inl ⟨_, here⟩)
          · exact fun _ isDone => notDone (status ▸ isDone)
          · intro at_ caller different isCaller prepares
            exact absurd prepares (other_call sound here different isCaller)
        · rintro caller other ⟨⟩ prepares
          cases prepares
  | test step =>
      simp only [State.advanceCall, Option.some.injEq] at advanced
      subst advanced
      rw [if_neg (tended.test thread step found)]
      exact tended_ended tended sound
  | delete step =>
      cases advanced
      have callStep : CallStep s ((s.delete step).setCall thread none) thread none none :=
        ⟨rfl, rfl, rfl, rfl, fun _ _ => rfl, fun _ _ => rfl, fun _ => rfl⟩
      exact tended.call sound.owned rfl rfl (fun _ => id)
        (fun _ _ => callStep.used_back (fun _ impossible => by cases impossible) fun _ => .inr)
        (fun _ _ => id) (fun _ _ _ => id) (fun _ impossible => by cases impossible)
        (fun _ _ impossible => by cases impossible) (.inr ⟨step, found, rfl, rfl⟩)
  | count step after =>
      have here : s.owned (.call thread) = some step := by simp [State.owned, found, Call.owns]
      simp only [State.advanceCall] at advanced
      split at advanced
      · rename_i isCurrent
        cases sound.owned.located.unique here (owned_of_current isCurrent)
      · cases advanced
        have callStep : CallStep s ({ s with
            userStepsInFlight := s.userStepsInFlight + 1
            history := { s.history with calls := s.history.calls ++ [step] } }.setCall thread
              (some (.hang step s.history.calls.length after))) thread none
            (some (.hang step s.history.calls.length after)) :=
          ⟨rfl, rfl, rfl, rfl, fun _ _ => rfl, fun _ _ => rfl, fun _ => rfl⟩
        refine tended_callStep tended sound callStep (fun _ => .inr)
          (fun _ impossible => by cases impossible) (fun _ impossible => by cases impossible)
          ?_ ?_ ?_ rfl
        · rintro other ⟨⟩
          exact .inl ⟨_, here⟩
        · rintro caller ⟨⟩
          rfl
        · rintro caller other ⟨⟩ isInspected
          cases isInspected
  | hang step ticket after =>
      cases advanced
      have here : s.owned (.call thread) = some step := by simp [State.owned, found, Call.owns]
      refine tended_setCall tended sound ?_ ?_ ?_
      · intro other owns
        split at owns <;> cases owns <;> exact .inl ⟨_, here⟩
      · intro caller isNext
        split at isNext <;> cases isNext <;> rfl
      · intro caller isNext
        split at isNext <;> cases isNext <;> rfl
  | enqueue step ticket after =>
      cases advanced
      have here : s.owned (.call thread) = some step := by simp [State.owned, found, Call.owns]
      obtain ⟨noOwner, prepares⟩ := afterSchedule_quiet step after
      refine tended.quiet sound.owned rfl rfl rfl ?_ (fun _ => id) (fun _ => id) prepares ?_ rfl
      · rintro other (⟨p, isAt⟩ | member)
        · cases p with
          | queue number =>
              by_cases same : number = ticket
              · simp only [State.owned, State.setCall, same, Function.update_self,
                  Option.some.injEq] at isAt
                exact isAt ▸ .inl ⟨_, here⟩
              · simp only [State.owned, State.setCall, Function.update_of_ne same] at isAt
                exact .inl ⟨.queue number, isAt⟩
          | pass at_ => exact .inl ⟨.pass at_, isAt⟩
          | succ at_ => exact .inl ⟨.succ at_, isAt⟩
          | call at_ =>
              by_cases same : at_ = thread
              · simp only [State.owned, State.setCall, same, Function.update_self, noOwner] at isAt
                cases isAt
              · simp only [State.owned, State.setCall, Function.update_of_ne same] at isAt
                exact .inl ⟨.call at_, isAt⟩
        · exact .inr member
      · exact tended_logs sound here
  | write step ticket after =>
      have here : s.owned (.call thread) = some step := by simp [State.owned, found, Call.owns]
      obtain ⟨-, current, isCurrent, -⟩ := sound.pointers.write thread step ticket after found
      simp only [State.advanceCall, isCurrent, Option.some.injEq] at advanced
      subst advanced
      obtain ⟨number, isPass⟩ := pass_of_current isCurrent
      obtain ⟨noOwner, prepares⟩ := afterSchedule_quiet step after
      have sched : ∀ other, (((s.setSucc current (some (step, ticket))).setCall thread
          (afterSchedule step after)).inst other).sched = (s.inst other).sched :=
        fun other => setSucc_sched current other (some (step, ticket))
      refine tended.quiet sound.owned rfl rfl rfl ?_ ?_ ?_ prepares ?_ rfl
      · rintro other (⟨p, isAt⟩ | member)
        · cases p with
          | queue number => exact .inl ⟨.queue number, isAt⟩
          | pass at_ => exact .inl ⟨.pass at_, isAt⟩
          | succ at_ =>
              by_cases same : at_ = thread
              · obtain ⟨succ, isSucc, rfl⟩ := Option.map_eq_some_iff.mp isAt
                simp only [State.successor, State.setCall, State.setSucc, same, isPass,
                  Option.bind_some, Pass.successor, Phase.newS, State.succStep,
                  Function.update_self, Option.getD_none, Option.filter_eq_some_iff] at isSucc
                exact Option.some.inj isSucc.1 ▸ .inl ⟨_, here⟩
              · refine .inl ⟨.succ at_, ?_⟩
                rw [← isAt]
                exact (congrArg (Option.map Prod.fst) (sound.owned.successor_setSucc_current
                  (owned_of_current isCurrent) same _)).symm
          | call at_ =>
              by_cases same : at_ = thread
              · simp only [State.owned, State.setCall, same, Function.update_self, noOwner] at isAt
                cases isAt
              · simp only [State.owned, State.setCall, Function.update_of_ne same] at isAt
                exact .inl ⟨.call at_, isAt⟩
        · exact .inr member
      · intro other isDone
        exact congrArg Schedulable.status (sched other) ▸ isDone
      · intro other wasSuspended
        rwa [sched]
      · intro caller other isNext isInspected
        obtain ⟨isLog, used, others⟩ := tended_logs sound here caller other isNext isInspected
        refine ⟨isLog, used, fun at_ caller different isCaller prepares => ?_⟩
        obtain ⟨notBegin, wasSuspended⟩ := others at_ caller different isCaller prepares
        refine ⟨notBegin, fun isPreparing => ?_⟩
        rw [sched]
        exact wasSuspended isPreparing

theorem tended_passOn {all : Bool} (found : s.call thread = some (.preparing step))
    (notSuspended : (s.inst step).sched.wasSuspendedSinceReset = false) :
    Tended bypass ((s.modify step fun sched => sched.unsuspend.1).setCall thread
      (if all then some (.count step none) else some (.delete step))) := by
  have here := owned_of_prepares found rfl
  obtain ⟨notDone, notIn, logs⟩ := tended.preparing thread _ step found rfl
  split
  · refine tended_modify tended sound _ found rfl id id ?_ ?_ ?_
    · rintro other ⟨⟩
      rfl
    · rintro caller ⟨⟩
      rfl
    · rintro caller other ⟨⟩ isInspected
      cases isInspected
  · have callStep := callStep_modify s thread step (fun sched => sched.unsuspend.1)
      (some (.delete step))
    have used : ∀ other, ((s.modify step fun sched => sched.unsuspend.1).setCall thread
        (some (.delete step))).Used other → s.Used other := fun other =>
      callStep.used_back (fun _ impossible => by cases impossible) fun _ => .inr
    have fits := sound.owned.at_ here
    simp only [State.mode, found, Option.map_some, Option.getD_some] at fits
    refine tended.call sound.owned rfl rfl (fun _ => id) (fun other _ => used other) ?_ ?_ ?_ ?_
      (.inl rfl)
    · intro other _ isDone
      by_cases same : other = step
      · subst same
        have sched : ((s.modify other fun sched => sched.unsuspend.1).inst other).sched =
            (s.inst other).sched.unsuspend.1 := modify_sched_self fun sched => sched.unsuspend.1
        exact congrArg Schedulable.status sched ▸ isDone
      · rwa [callStep.sched_other other same] at isDone
    · intro other _ _ wasSuspended
      by_cases same : other = step
      · subst same
        rw [notSuspended] at wasSuspended
        cases wasSuspended
      · rwa [callStep.sched_other other same]
    · rintro other ⟨⟩
      refine ⟨tended.not_deleted (.inl ⟨_, here⟩), sound.owned.created here, ?_,
        (fun impossible => by cases impossible), ?_, ?_⟩
      · intro at_ _ isDelete
        exact (tended.deleting at_ step isDelete).1.1 (.inl ⟨_, here⟩)
      · refine fun _ => ⟨⟨?_, fun _ => notIn⟩, fun at_ _ looks => ?_⟩
        · rintro (⟨p, isAt⟩ | member)
          · by_cases isCall : p = .call thread
            · subst isCall
              rw [callStep.owned_call] at isAt
              cases isAt
            · rw [callStep.owned_other p isCall] at isAt
              exact isCall (sound.owned.located.unique isAt here)
          · have noMember := fits.2 notSuspended
            exact absurd (show 0 < s.memberships step from member) (by omega)
        · rw [(logs at_ looks).2.2 rfl] at notSuspended
          cases notSuspended
      · intro at_ caller different isCaller prepares
        exact absurd prepares (other_call sound here different isCaller)
    · rintro caller other ⟨⟩ prepares
      cases prepares

theorem tended_prepared (found : s.call thread = some (.preparing step)) :
    Tended bypass ((s.modify step fun sched => { sched with status := .prepared }).setCall thread
      (some (.prepareEnd step))) := by
  have here := owned_of_prepares found rfl
  obtain ⟨notDone, notIn, logs⟩ := tended.preparing thread _ step found rfl
  have callStep := callStep_modify s thread step (fun sched => { sched with status := .prepared })
    (some (.prepareEnd step))
  have sched : ((s.modify step fun sched => { sched with status := .prepared }).inst step).sched =
      { (s.inst step).sched with status := .prepared } :=
    modify_sched_self fun sched => { sched with status := .prepared }
  have status : ((s.modify step fun sched => { sched with status := .prepared }).inst
      step).sched.status ≠ .done := by
    rw [sched]
    nofun
  refine tended.call sound.owned rfl rfl (fun _ => id) ?_ ?_ ?_ nofun ?_ (.inl rfl)
  · intro other _
    refine callStep.used_back ?_ fun _ => .inr
    rintro target ⟨⟩
    exact .inl ⟨_, here⟩
  · intro other _ isDone
    by_cases same : other = step
    · subst same
      exact absurd isDone status
    · rwa [callStep.sched_other other same] at isDone
  · intro other _ _ wasSuspended
    by_cases same : other = step
    · subst same
      change ((s.modify other fun sched =>
        { sched with status := .prepared }).inst other).sched.wasSuspendedSinceReset = true
      rwa [sched]
    · rwa [callStep.sched_other other same]
  · rintro caller other ⟨⟩ prepares
    cases prepares
    exact ⟨status, notIn, fun at_ _ looks => ⟨(logs at_ looks).1, nofun, nofun⟩⟩

theorem tended_create (absent : s.created step = false) :
    Tended bypass ({ s with
      inst := Function.update s.inst step { sched := .create, succStep := none }
      created := Function.update s.created step true }.setCall thread
        (some (.prepareBegin step))) := by
  obtain ⟨unplaced, noMember⟩ := sound.owned.fresh step absent
  obtain ⟨notDeleted, notIn, unseen⟩ := tended.fresh step absent
  have different : ∀ other, s.created other = true → other ≠ step := by
    rintro other isCreated rfl
    rw [absent] at isCreated
    cases isCreated
  refine tended.call sound.owned rfl rfl ?_ ?_ ?_ ?_ nofun ?_ (.inl rfl)
  · intro other isCreated
    simpa only [State.setCall, Function.update_of_ne (different other isCreated)] using isCreated
  · rintro other isCreated (⟨p, isAt⟩ | member)
    · cases p with
      | queue number => exact .inl ⟨.queue number, isAt⟩
      | pass at_ => exact .inl ⟨.pass at_, isAt⟩
      | succ at_ =>
          refine .inl ⟨.succ at_, ?_⟩
          rw [← isAt]
          exact (congrArg (Option.map Prod.fst)
            (sound.owned.successor_create unplaced _ at_)).symm
      | call at_ =>
          by_cases same : at_ = thread
          · simp only [State.owned, State.setCall, same, Function.update_self, Option.bind_some,
              Call.owns, Option.some.injEq] at isAt
            exact absurd isAt.symm (different other isCreated)
          · simp only [State.owned, State.setCall, Function.update_of_ne same] at isAt
            exact .inl ⟨.call at_, isAt⟩
    · exact .inr member
  · intro other isCreated isDone
    simpa only [State.setCall, Function.update_of_ne (different other isCreated)] using isDone
  · intro other isCreated _ wasSuspended
    simpa only [State.setCall, Function.update_of_ne (different other isCreated)] using wasSuspended
  · rintro caller other ⟨⟩ prepares
    cases prepares
    refine ⟨?_, notIn, fun at_ _ looks => absurd looks (unseen at_)⟩
    simp [State.setCall, Schedulable.create]

theorem tended_advancePass [DecidableEq Item] {pass : Pass Step} (found : s.pass thread = some pass)
    (allowed : Careful bypass s (.advancePass thread))
    (advanced : s.advancePass bypass thread pass = some next) : Tended bypass next := by
  obtain ⟨step, ticket, phase⟩ := pass
  by_cases isNext : ∃ newS, phase = .next newS
  · obtain ⟨newS, rfl⟩ := isNext
    refine tended_next tended sound found ?_ advanced
    rintro isBypass succ rfl different
    refine allowed.1 isBypass succ.1 ?_
    simp [State.starts, found, different]
  · have notNext : ∀ newS, phase ≠ .next newS := fun newS same => isNext ⟨newS, same⟩
    obtain ⟨nextPhase, advance⟩ := advance_of_advancePass sound found notNext advanced
    refine tended_advance tended sound found advance fun target isTarget other => ?_
    refine allowed.2.2 target ?_ other
    simp [State.destroys, found, isTarget]

theorem tended_perform [DecidableEq Item] {action : Action Step Item Thread}
    (allowed : Careful bypass s action) (performed : perform bypass s action = some next) :
    Tended bypass next := by
  cases action with
  | pop thread ticket =>
      simp only [perform, Option.ite_none_right_eq_some, Option.map_eq_some_iff,
        Option.isNone_iff_eq_none] at performed
      obtain ⟨⟨noPass, noCall⟩, step, queued, rfl⟩ := performed
      exact tended_pop tended sound noPass noCall queued fun isBypass =>
        allowed.1 isBypass step queued
  | advancePass thread =>
      obtain ⟨pass, found, advanced⟩ := Option.bind_eq_some_iff.mp performed
      exact tended_advancePass tended sound found allowed advanced
  | get thread item =>
      simp only [perform, Option.ite_none_right_eq_some] at performed
      obtain ⟨-, isNext⟩ := performed
      cases isCurrent : s.current thread with
      | some step =>
          simp only [isCurrent, Option.some.injEq] at isNext
          subst isNext
          exact tended_suspend tended (.inl ⟨_, owned_of_current isCurrent⟩) item
      | none =>
          simp only [isCurrent, Option.some.injEq] at isNext
          subst isNext
          refine tended_waiting tended (fun _ => rfl) ?_ (fun _ => rfl) fun _ => id
          intro step member
          exact .inr (by simpa [State.memberships] using member)
  | put thread item =>
      simp only [perform, Option.ite_none_right_eq_some, Option.some.injEq] at performed
      obtain ⟨-, rfl⟩ := performed
      have callStep : CallStep s
          ({ s with present := Function.update s.present item true }.setCall thread
            (some (.resume item))) thread none (some (.resume item)) :=
        ⟨rfl, rfl, rfl, rfl, fun _ _ => rfl, fun _ _ => rfl, fun _ => rfl⟩
      refine tended_callStep tended sound callStep (fun _ => .inr)
        (fun _ impossible => by cases impossible) (fun _ impossible => by cases impossible)
        (fun _ impossible => by cases impossible) ?_ ?_ rfl
      · rintro caller ⟨⟩
        rfl
      · rintro caller step ⟨⟩ isInspected
        cases isInspected
  | create thread step =>
      simp only [perform, Option.ite_none_right_eq_some, Option.some.injEq] at performed
      obtain ⟨⟨-, absent⟩, rfl⟩ := performed
      exact tended_create tended sound absent
  | return_ thread outcome =>
      simp only [perform, Option.ite_none_right_eq_some, Option.isNone_iff_eq_none] at performed
      obtain ⟨-, returned⟩ := performed
      split at returned
      · rename_i step ticket found
        refine tended_return tended sound found ?_ returned
        rintro rfl
        exact allowed.2.1 step (by simp [State.finishes, State.current, found])
      · cases returned
  | advanceCall thread =>
      obtain ⟨call, found, advanced⟩ := Option.bind_eq_some_iff.mp performed
      exact tended_advanceCall tended sound found advanced
  | depends thread item =>
      simp only [perform] at performed
      split at performed
      · rename_i step found
        simp only [Option.ite_none_left_eq_some] at performed
        obtain ⟨-, isNext⟩ := performed
        cases isNext
        exact tended_suspend tended (.inl ⟨_, owned_of_prepares found rfl⟩) item
      · cases performed
  | passOn thread all =>
      simp only [perform] at performed
      split at performed
      · rename_i step found
        simp only [Option.ite_none_left_eq_some] at performed
        obtain ⟨notSuspended, isNext⟩ := performed
        cases isNext
        exact tended_passOn tended sound found (by simpa using notSuspended)
      · cases performed
  | prepared thread =>
      simp only [perform] at performed
      split at performed
      · rename_i step found
        cases performed
        exact tended_prepared tended sound found
      · cases performed
  | wait =>
      cases performed
      exact ⟨tended.gone, tended.deleting, tended.test, tended.preparing, tended.fresh, tended.once⟩
  | unwait =>
      simp only [perform, Option.ite_none_right_eq_some, Option.some.injEq] at performed
      obtain ⟨-, rfl⟩ := performed
      exact ⟨tended.gone, tended.deleting, tended.test, tended.preparing, tended.fresh, tended.once⟩

omit [DecidableEq Thread] in
theorem accessed_by_pass {pass : Pass Step} (found : s.pass thread = some pass)
    (accesses : pass.accesses bypass = some step) : s.history.deletes step = 0 := by
  obtain ⟨holder, ticket, phase⟩ := pass
  have owner : phase.owns = true → holder = step → s.history.deletes step = 0 := by
    rintro owns rfl
    exact tended.not_deleted (.inl ⟨.pass thread, by simp [State.owned, found, owns]⟩)
  cases phase with
  | begin => exact owner rfl (Option.some.inj accesses)
  | executing => exact owner rfl (Option.some.inj accesses)
  | returned success =>
      simp only [Pass.accesses, Option.ite_none_right_eq_some, Option.some.injEq] at accesses
      exact owner rfl accesses.2
  | read success newS =>
      cases success with
      | true => cases accesses
      | false => exact owner rfl (Option.some.inj accesses)
  | delete newS => exact owner rfl (Option.some.inj accesses)
  | again newS => exact owner rfl (Option.some.inj accesses)
  | failed newS => cases accesses
  | clear newS =>
      cases accesses
      have isBypass : bypass = true := by
        by_contra isDirect
        cases sound.pointers.unmarked (by simpa using isDirect) thread _ found
      by_contra deleted
      refine (tended.gone step (Nat.pos_of_ne_zero deleted)).1.2 isBypass ⟨thread, ?_⟩
      simp [State.windowAt, found, Phase.inWindow]
  | mark newS =>
      cases newS with
      | none => cases accesses
      | some succ =>
          simp only [Pass.accesses, Option.ite_none_left_eq_some, Option.some.injEq] at accesses
          obtain ⟨different, rfl⟩ := accesses
          refine tended.not_deleted (.inl ⟨.succ thread, ?_⟩)
          simp [State.owned, State.successor, found, Pass.successor, Phase.newS, different,
            Option.filter]
  | next newS => cases accesses

omit [DecidableEq Thread] sound in
theorem accessed_by_call [DecidableEq Item] {call : Call Step Item}
    (found : s.call thread = some call)
    (accesses : s.accessedByCall bypass thread call = some step) : s.history.deletes step = 0 := by
  have owner : call.owns = some step → s.history.deletes step = 0 := by
    intro owns
    exact tended.not_deleted (.inl ⟨.call thread, by simp [State.owned, found, owns]⟩)
  have looks : call.inspects = some step → s.history.deletes step = 0 := by
    intro inspects
    by_contra deleted
    exact (tended.gone step (Nat.pos_of_ne_zero deleted)).2 thread
      (by simp [State.Inspects, found, inspects])
  have isCurrent : s.current thread = some step → s.history.deletes step = 0 := fun current =>
    tended.not_deleted (.inl ⟨_, owned_of_current current⟩)
  cases call with
  | resume item =>
      obtain ⟨⟨other, member⟩, isFound, isStep⟩ := Option.bind_eq_some_iff.mp accesses
      refine tended.not_deleted
        (.inr (List.countP_pos_iff.mpr ⟨_, List.mem_of_find?_eq_some isFound, ?_⟩))
      simpa using isStep
  | log target item => exact looks accesses
  | test target => exact looks accesses
  | delete target => exact looks accesses
  | prepareBegin target => exact owner accesses
  | preparing target => exact owner accesses
  | prepareEnd target => exact owner accesses
  | count target after => cases accesses
  | hang target ticket after =>
      simp only [State.accessedByCall, Option.ite_none_right_eq_some] at accesses
      exact isCurrent accesses.2
  | enqueue target ticket after => exact owner accesses
  | write target ticket after => exact isCurrent accesses

omit [DecidableEq Thread] in
theorem accessed [DecidableEq Item] {action : Action Step Item Thread}
    (accesses : s.accesses bypass action = some step) : s.history.deletes step = 0 := by
  have byCall : ∀ thread, (s.call thread).bind (s.accessedByCall bypass thread) = some step →
      s.history.deletes step = 0 := by
    intro thread accesses
    obtain ⟨call, found, isAccessed⟩ := Option.bind_eq_some_iff.mp accesses
    exact accessed_by_call tended found isAccessed
  have byCurrent : ∀ thread, s.current thread = some step → s.history.deletes step = 0 :=
    fun _ current => tended.not_deleted (.inl ⟨_, owned_of_current current⟩)
  cases action with
  | pop thread ticket => cases accesses
  | advancePass thread =>
      obtain ⟨pass, found, isAccessed⟩ := Option.bind_eq_some_iff.mp accesses
      exact accessed_by_pass tended sound found isAccessed
  | get thread item => exact byCurrent thread accesses
  | put thread item => cases accesses
  | create thread step => cases accesses
  | return_ thread outcome => exact byCurrent thread accesses
  | advanceCall thread => exact byCall thread accesses
  | depends thread item => exact byCall thread accesses
  | passOn thread all => exact byCall thread accesses
  | prepared thread => exact byCall thread accesses
  | wait => cases accesses
  | unwait => cases accesses

end Tend

variable [DecidableEq Item]

theorem tended_of_reached (reached : Reached (system bypass) (Careful bypass) s) :
    Tended bypass s ∧ s.history.misused = false := by
  refine reached.invariant (fun s => Tended bypass s ∧ s.history.misused = false) ?_ ?_
  · rintro _ rfl
    refine ⟨⟨?_, nofun, nofun, nofun, ?_, fun _ => Nat.zero_le 1⟩, rfl⟩
    · exact fun _ deleted => absurd deleted (lt_irrefl 0)
    · exact fun _ _ => ⟨rfl, nofun, nofun⟩
  · rintro state action next before ⟨tended, unmisused⟩ allowed stepped
    have weaker : Reached (system bypass) (NoPassInWindow bypass) state :=
      before.weaken fun _ _ careful => careful.1
    obtain ⟨place, ledger, sound, -⟩ := kept_of_reached weaker
    obtain ⟨performed, isPerformed, rfl⟩ := Option.map_eq_some_iff.mp stepped
    have after := tended_perform tended sound allowed isPerformed
    refine ⟨⟨after.gone, after.deleting, after.test, after.preparing, after.fresh, after.once⟩, ?_⟩
    simp only [unmisused, Bool.false_or, Option.any_eq_false, decide_eq_false_iff_not, not_lt,
      nonpos_iff_eq_zero]
    exact fun step accesses => accessed tended sound accesses

/-- Each step instance is deleted at most once and never used after its deletion, in the
runs in which no other thread sets it to done or deletes it while a thread has still to
look at it. -/
theorem destroyed_once (reached : Reached (system bypass) (Careful bypass) s) :
    (∀ step, s.history.deletes step ≤ 1) ∧ s.history.misused = false := by
  obtain ⟨tended, unmisused⟩ := tended_of_reached reached
  exact ⟨tended.once, unmisused⟩

end Steps

instance [DecidableEq Step] (s : State Step Item Thread) (thread : Thread) (step : Step) :
    Decidable (s.Inspects thread step) :=
  inferInstanceAs (Decidable ((s.call thread).bind Call.inspects = some step))

instance [DecidableEq Step] [DecidableEq Item] [Fintype Step] [Fintype Thread] (bypass : Bool)
    (s : State Step Item Thread) (action : Action Step Item Thread) :
    Decidable (Careful bypass s action) :=
  inferInstanceAs (Decidable (_ ∧ _ ∧ _))

/-- Thread 0 finds a dependency of the step missing.  Thread 1 puts the item, and thread 2
executes the step, after thread 0 has tested whether it is done if `tested`. -/
def prepareAndExecute (tested : Bool) : List (Action (Fin 1) (Fin 1) (Fin 3)) :=
  [.create 0 0, .advanceCall 0, .depends 0 0, .prepared 0, .advanceCall 0] ++
    (if tested then [.advanceCall 0] else []) ++ [.put 1 0] ++
    List.replicate 6 (.advanceCall 1) ++ [.pop 2 0, .advancePass 2, .return_ 2 .success] ++
    (if tested then [] else List.replicate 2 (.advanceCall 0)) ++
    List.replicate 3 (.advancePass 2)

/-- Thread 0 finds the step done and deletes it, and so does thread 2. -/
theorem destroyed_twice :
    ¬ ∀ s : State (Fin 1) (Fin 1) (Fin 3), Reachable (system false) s →
      (∀ step, s.history.deletes step ≤ 1) ∧ s.history.misused = false := by
  intro always
  have reached : Reachable (system false) _ :=
    Reached.run (.initial rfl) (prepareAndExecute false) rfl
  have impossible : 2 ≤ 1 := (always _ reached).1 0
  omega

theorem destroyed_once_tested :
    ∃ s : State (Fin 1) (Fin 1) (Fin 3),
      (system false).run (Careful false) (start _ _ _) (prepareAndExecute true) = some s ∧
      s.history.deletes 0 = 1 ∧ s.history.misused = false := by
  have reached : Reached (system false) (Careful false) _ :=
    Reached.run (.initial rfl) (prepareAndExecute true) rfl
  exact ⟨_, rfl, rfl, (destroyed_once reached).2⟩

end CnC.Execute
