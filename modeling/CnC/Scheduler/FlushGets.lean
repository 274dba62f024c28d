import Mathlib.Logic.Function.Basic
import Mathlib.Tactic
import CnC.Library.Transition
import CnC.Scheduler.Schedulable

/-!
# flush_gets

A step which gets its items without blocking calls `flush_gets` after the last get, which
throws if the step instance was suspended since the flag was reset.  The flag is reset when
`prepare` or `do_execute` begins.  All sub-steps of a range share the flag of the range
instance.

An instance may be held by several calls of `prepare` and `do_execute`.  The gets of a call
are recorded: those of the step which is running, and those which came before.
-/

namespace CnC.FlushGets

open Transition CnC.Scheduler

universe u

variable {Step Item : Type u}

/-- The items which a step got, and whether they were available. -/
abbrev Gets (Item : Type u) := List (Item × Bool)

def Failed (gets : Gets Item) : Prop :=
  ∃ entry ∈ gets, entry.2 = false

/-- What a call may execute: `prepare` executes the step if it is pre-scheduled, with an
extra suspend if the step which has put the tag is not prepared itself.  The first execution
of a range prepares its tags, and returns if the instance has been suspended. -/
inductive CallKind where
  | preparing
  | prescheduling (extraSuspend : Bool)
  | preparingTags
  | executing
  | returning
  deriving DecidableEq, Repr

/-- `earlier` has the gets of the steps which the call has executed, and the items on which
the tags of a range depend. -/
structure Call (Item : Type u) where
  kind : CallKind
  earlier : List (Gets Item)
  run : Option (Gets Item)
  deriving DecidableEq

/-- `inited` tells whether the statuses of a range are there. -/
structure Instance (Item : Type u) where
  sched : Schedulable
  isRange : Bool
  inited : Bool
  calls : List (Call Item)
  deriving DecidableEq

/-- How `prepare` ends: the instance is not needed if it was executed to success or is sent
to another process. -/
inductive PrepareResult where
  | prepared
  | sequentialized
  | unneeded
  deriving DecidableEq, Repr

structure State (Step Item : Type u) where
  inst : Step → Option (Instance Item)
  present : Item → Bool
  waiting : List (Item × Step)

inductive CallAction (Item : Type u) where
  | beginRun
  | get (item : Item)
  | unsafeGet (item : Item)
  | depends (item : Item)
  | flushGets
  | endRun
  | tagsPrepared

inductive Action (Step Item : Type u) where
  | create (step : Step) (isRange : Bool)
  | prepareBegin (step : Step) (kind : CallKind)
  | executeBegin (step : Step)
  | call (step : Step) (i : Nat) (action : CallAction Item)
  | prepareEnd (step : Step) (i : Nat) (result : PrepareResult)
  | executeEnd (step : Step) (i : Nat) (result : StepReturnValue)
  | waitSuspend (step : Step)
  | relaunch (step : Step)
  | put (item : Item)

section Steps

/-- `context_base::flush_gets`, where `true` stands for the exception `DATA_NOT_READY`. -/
def flushGets (current : Option Schedulable) : Bool :=
  current.any fun s => s.wasSuspendedSinceReset

def Call.mayRun (isRange : Bool) (c : Call Item) : Bool :=
  match c.kind with
  | .preparing | .returning => false
  | .prescheduling _ => c.earlier.isEmpty
  | .preparingTags => true
  | .executing => isRange || c.earlier.isEmpty

/-- The running step returns or throws. -/
def Call.finishRun (c : Call Item) (gets : Gets Item) : Call Item :=
  { c with earlier := c.earlier ++ [gets], run := none }

/-- The schedulable and the call afterwards, and the item whose suspend group the instance
has joined. -/
def callStep (present : Item → Bool) (x : Instance Item) (c : Call Item) :
    CallAction Item → Option (Schedulable × Call Item × Option Item)
  | .beginRun =>
      if c.run.isNone && c.mayRun x.isRange then some (x.sched, { c with run := some [] }, none)
      else none
  | .get item =>
      c.run.map fun gets =>
        if present item then (x.sched, { c with run := some (gets ++ [(item, true)]) }, none)
        else (x.sched.suspend, c.finishRun (gets ++ [(item, false)]), some item)
  | .unsafeGet item =>
      c.run.map fun gets =>
        if present item then (x.sched, { c with run := some (gets ++ [(item, true)]) }, none)
        else (x.sched.suspend, { c with run := some (gets ++ [(item, false)]) }, some item)
  | .depends item =>
      if c.run.isNone && (c.kind = .preparing || c.kind = .preparingTags) then
        if present item then some (x.sched, c, none)
        else some (x.sched.suspend, c.finishRun [(item, false)], some item)
      else none
  | .flushGets =>
      c.run.map fun gets =>
        if flushGets (some x.sched) then (x.sched, c.finishRun gets, none) else (x.sched, c, none)
  | .endRun => c.run.map fun gets => (x.sched, c.finishRun gets, none)
  | .tagsPrepared =>
      if c.run.isNone && c.kind = .preparingTags then
        some (x.sched,
          { c with kind := if x.sched.nSuspenders > 1 then .returning else .executing }, none)
      else none

/-- `prepare` of a range instance does not reset the flag, and does not execute the range. -/
def Instance.prepareBegin (x : Instance Item) (kind : CallKind) : Option (Instance Item) :=
  let call : Call Item := { kind := kind, earlier := [], run := none }
  match kind with
  | .preparing =>
      let sched := if x.isRange then x.sched.suspend else x.sched.suspend.resetWasSuspended
      some { x with sched := sched, calls := call :: x.calls }
  | .prescheduling extraSuspend =>
      if x.isRange then none
      else
        let sched := x.sched.suspend.resetWasSuspended
        some { x with
          sched := if extraSuspend then sched.suspend else sched
          calls := call :: x.calls }
  | .preparingTags | .executing | .returning => none

/-- The beginning of `do_execute`. -/
def Instance.executeBegin (x : Instance Item) : Instance Item :=
  let sched :=
    if x.sched.status = .fromPending then { x.sched with status := .prepared } else x.sched.suspend
  let kind := if x.isRange && !x.inited then .preparingTags else .executing
  { x with
    sched := sched.resetWasSuspended
    inited := true
    calls := { kind := kind, earlier := [], run := none } :: x.calls }

def Instance.unsuspend (x : Instance Item) : Instance Item :=
  { x with sched := x.sched.unsuspend.1 }

def Instance.endCall (x : Instance Item) (i : Nat) (status : Status) : Instance Item :=
  { x with sched := { x.sched with status := status }, calls := x.calls.eraseIdx i }

/-- The end of `prepare`, which keeps its suspend if the step is to be sequentialized. -/
def Instance.prepareEnd (x : Instance Item) (i : Nat) (extraSuspend : Bool) :
    PrepareResult → Option (Instance Item)
  | .unneeded => none
  | .sequentialized => (if extraSuspend then x.unsuspend else x).endCall i .prepared
  | .prepared => (if extraSuspend then x.unsuspend else x).unsuspend.endCall i .prepared

/-- The end of `do_execute`. -/
def Instance.executeEnd (x : Instance Item) (i : Nat) : StepReturnValue → Option (Instance Item)
  | .success => none
  | .needsExtraWake => x.unsuspend.endCall i .pending
  | .unfinished | .failure | .needsSequentialize => x.unsuspend.endCall i x.sched.status

variable [DecidableEq Step]

def State.set (s : State Step Item) (step : Step) (x : Option (Instance Item)) : State Step Item :=
  { s with inst := Function.update s.inst step x }

/-- `re_schedule`, applied to one member of a suspend group. -/
def reSchedule (s : State Step Item) (step : Step) : State Step Item :=
  s.set step ((s.inst step).map Instance.unsuspend)

variable [DecidableEq Item]

/-- `scheduler_i::resume` after the item was stored. -/
def put (s : State Step Item) (item : Item) : State Step Item :=
  let group := (s.waiting.filter fun entry => entry.1 = item).map Prod.snd
  let resumed := group.foldl reSchedule s
  { resumed with
    present := Function.update s.present item true
    waiting := s.waiting.filter fun entry => entry.1 ≠ item }

def step (s : State Step Item) : Action Step Item → Option (State Step Item)
  | .create step isRange =>
      if (s.inst step).isNone then
        some (s.set step
          (some { sched := .create, isRange := isRange, inited := false, calls := [] }))
      else none
  | .prepareBegin step kind =>
      (s.inst step).bind fun x => (x.prepareBegin kind).map fun x => s.set step (some x)
  | .executeBegin step => (s.inst step).map fun x => s.set step (some x.executeBegin)
  | .call step i action =>
      (s.inst step).bind fun x => x.calls[i]?.bind fun c =>
        (callStep s.present x c action).map fun (sched, c, joined) =>
          { s.set step (some { x with sched := sched, calls := x.calls.set i c }) with
            waiting := (joined.map fun item => (item, step)).toList ++ s.waiting }
  | .prepareEnd step i result =>
      (s.inst step).bind fun x => x.calls[i]?.bind fun c =>
        match c.kind, c.run with
        | .preparing, none => some (s.set step (x.prepareEnd i false result))
        | .prescheduling extraSuspend, none =>
            some (s.set step (x.prepareEnd i extraSuspend result))
        | _, _ => none
  | .executeEnd step i result =>
      (s.inst step).bind fun x => x.calls[i]?.bind fun c =>
        match c.kind, c.run with
        | .executing, none | .returning, none => some (s.set step (x.executeEnd i result))
        | _, _ => none
  | .waitSuspend step =>
      (s.inst step).map fun x => s.set step (some { x with sched := x.sched.suspend })
  | .relaunch step =>
      (s.inst step).map fun x =>
        s.set step (some { x with sched := { x.sched with status := .fromPending } })
  | .put item => some (put s item)

def system : System (State Step Item) (Action Step Item) where
  Initial s := s = { inst := fun _ => none, present := fun _ => false, waiting := [] }
  step := step

def State.Free (s : State Step Item) (step : Step) : Prop :=
  ∀ x ∈ s.inst step, x.calls = []

instance (s : State Step Item) (step : Step) : Decidable (s.Free step) := by
  unfold State.Free
  infer_instance

/-- While a call holds an instance, no other call of `prepare` or `do_execute` begins with it,
and `wait_all` does not suspend it. -/
def Alone (s : State Step Item) : Action Step Item → Prop
  | .prepareBegin step _ | .executeBegin step | .waitSuspend step => s.Free step
  | .create _ _ | .call _ _ _ | .prepareEnd _ _ _ | .executeEnd _ _ _ | .relaunch _ | .put _ => True

instance (s : State Step Item) (action : Action Step Item) : Decidable (Alone s action) := by
  unfold Alone
  split <;> infer_instance

end Steps

def Call.Executes (c : Call Item) : Prop :=
  c.kind ≠ .preparing ∧ c.kind ≠ .returning

/-- The instance was suspended since the flag was reset: by `prepare`, or by a get. -/
def Call.Suspended (c : Call Item) : Prop :=
  c.kind = .prescheduling true ∨ (∃ gets ∈ c.earlier, Failed gets) ∨ ∃ gets ∈ c.run, Failed gets

structure Call.Fits (c : Call Item) (flag : Bool) : Prop where
  executes : c.run.isSome = true → c.Executes
  flag : c.Executes → (flag = true ↔ c.Suspended)

section Call

variable {present : Item → Bool} {x : Instance Item} {c next : Call Item} {gets : Gets Item}
  {sched : Schedulable} {joined : Option Item} {flag : Bool}

theorem failed_snoc (gets : Gets Item) (item : Item) (found : Bool) :
    Failed (gets ++ [(item, found)]) ↔ Failed gets ∨ found = false := by
  simp [Failed, or_and_right, exists_or]

theorem not_failed_nil : ¬ Failed ([] : Gets Item) := by
  simp [Failed]

theorem Call.Fits.run (fits : c.Fits flag) (running : c.run = some gets) :
    c.Executes ∧ (flag = true ↔ c.Suspended) := by
  have executes := fits.executes (by rw [running]; rfl)
  exact ⟨executes, fits.flag executes⟩

theorem Call.Fits.same (fits : c.Fits flag) (running : c.run = some gets) {more : Gets Item}
    (sameFailed : Failed more ↔ Failed gets) : Call.Fits { c with run := some more } flag := by
  obtain ⟨executes, isFlag⟩ := fits.run running
  refine ⟨fun _ => executes, fun _ => isFlag.trans ?_⟩
  simp [Call.Suspended, running, sameFailed]

theorem Call.Fits.failed (fits : c.Fits flag) (running : c.run = some gets) {more : Gets Item}
    (isFailed : Failed more) : Call.Fits { c with run := some more } true := by
  obtain ⟨executes, -⟩ := fits.run running
  exact ⟨fun _ => executes, fun _ => iff_of_true rfl (.inr (.inr ⟨more, rfl, isFailed⟩))⟩

theorem Call.Fits.finishRun (fits : c.Fits flag) (running : c.run = some gets) :
    (c.finishRun gets).Fits flag := by
  obtain ⟨executes, isFlag⟩ := fits.run running
  refine ⟨nofun, fun _ => isFlag.trans ?_⟩
  simp [Call.Suspended, Call.finishRun, running, or_and_right, exists_or]

theorem executes_of_mayRun {isRange : Bool} (mayRun : c.mayRun isRange = true) : c.Executes := by
  constructor <;> intro idle <;> simp [Call.mayRun, idle] at mayRun

theorem Call.Fits.step (fits : c.Fits x.sched.wasSuspendedSinceReset) {action : CallAction Item}
    (stepped : callStep present x c action = some (sched, next, joined)) :
    next.Fits sched.wasSuspendedSinceReset := by
  cases action with
  | beginRun =>
      obtain ⟨enabled, isNext⟩ := Option.ite_none_right_eq_some.mp stepped
      obtain ⟨idle, mayRun⟩ := Bool.and_eq_true_iff.mp enabled
      have executes := executes_of_mayRun mayRun
      cases isNext
      refine ⟨fun _ => executes, fun _ => (fits.flag executes).trans ?_⟩
      simp [Call.Suspended, Option.isNone_iff_eq_none.mp idle, not_failed_nil]
  | get item =>
      obtain ⟨gets, running, isNext⟩ := Option.map_eq_some_iff.mp stepped
      split at isNext
      · cases isNext
        exact fits.same running (by simp [failed_snoc])
      · cases isNext
        exact (fits.failed running (by simp [failed_snoc])).finishRun rfl
  | unsafeGet item =>
      obtain ⟨gets, running, isNext⟩ := Option.map_eq_some_iff.mp stepped
      split at isNext
      · cases isNext
        exact fits.same running (by simp [failed_snoc])
      · cases isNext
        exact fits.failed running (by simp [failed_snoc])
  | depends item =>
      obtain ⟨enabled, isNext⟩ := Option.ite_none_right_eq_some.mp stepped
      split at isNext
      · cases isNext
        exact fits
      · cases isNext
        refine ⟨nofun, fun _ => iff_of_true rfl (.inr (.inl ⟨[(item, false)], ?_, ?_⟩))⟩
        · exact List.mem_append_right _ (List.mem_singleton.mpr rfl)
        · simp [Failed]
  | flushGets =>
      obtain ⟨gets, running, isNext⟩ := Option.map_eq_some_iff.mp stepped
      split at isNext
      · cases isNext
        exact fits.finishRun running
      · cases isNext
        exact fits
  | endRun =>
      obtain ⟨gets, running, isNext⟩ := Option.map_eq_some_iff.mp stepped
      cases isNext
      exact fits.finishRun running
  | tagsPrepared =>
      obtain ⟨enabled, isNext⟩ := Option.ite_none_right_eq_some.mp stepped
      simp only [Bool.and_eq_true, Option.isNone_iff_eq_none, decide_eq_true_eq] at enabled
      obtain ⟨idle, isTags⟩ := enabled
      have executes : c.Executes := by simp [Call.Executes, isTags]
      cases isNext
      refine ⟨by simp [idle], fun _ => (fits.flag executes).trans ?_⟩
      split <;> simp [Call.Suspended, isTags]

end Call

def Instance.Fits (x : Instance Item) : Prop :=
  x.calls = [] ∨ ∃ c, x.calls = [c] ∧ c.Fits x.sched.wasSuspendedSinceReset

section Instances

variable {x y : Instance Item} {c : Call Item} {i : Nat} {kind : CallKind}

theorem Instance.Fits.call (fits : x.Fits) (isCall : x.calls[i]? = some c) :
    x.calls = [c] ∧ i = 0 ∧ c.Fits x.sched.wasSuspendedSinceReset := by
  rcases fits with isEmpty | ⟨d, single, callFits⟩
  · simp [isEmpty] at isCall
  · rw [single, List.getElem?_singleton] at isCall
    split at isCall
    · cases isCall
      exact ⟨single, ‹_›, callFits⟩
    · cases isCall

theorem Instance.Fits.prepareBegin (free : x.calls = []) (begun : x.prepareBegin kind = some y) :
    y.Fits := by
  cases kind with
  | preparing =>
      cases begun
      exact .inr ⟨_, by rw [free], by simp, fun executes => absurd rfl executes.1⟩
  | prescheduling extraSuspend =>
      obtain ⟨-, isNext⟩ := Option.ite_none_left_eq_some.mp begun
      cases isNext
      refine .inr ⟨_, by rw [free], by simp, fun _ => ?_⟩
      cases extraSuspend <;> simp [Call.Suspended, Schedulable.suspend, Schedulable.resetWasSuspended]
  | preparingTags => cases begun
  | executing => cases begun
  | returning => cases begun

theorem Instance.Fits.executeBegin (free : x.calls = []) : x.executeBegin.Fits := by
  refine .inr ⟨_, by rw [Instance.executeBegin, free], by simp, fun _ => ?_⟩
  refine iff_of_false (by simp [Instance.executeBegin, Schedulable.resetWasSuspended]) ?_
  cases x.isRange <;> cases x.inited <;> simp [Call.Suspended]

theorem Instance.Fits.endCall (single : x.calls = [c]) (status : Status) :
    (x.endCall 0 status).Fits := by
  refine .inl ?_
  simp [Instance.endCall, single]

theorem Instance.Fits.prepareEnd (single : x.calls = [c]) {extraSuspend : Bool}
    {result : PrepareResult} (ended : x.prepareEnd 0 extraSuspend result = some y) : y.Fits := by
  cases result with
  | unneeded => cases ended
  | sequentialized =>
      cases ended
      cases extraSuspend <;> exact .endCall single .prepared
  | prepared =>
      cases ended
      cases extraSuspend <;> exact .endCall single .prepared

theorem Instance.Fits.executeEnd (single : x.calls = [c]) {result : StepReturnValue}
    (ended : x.executeEnd 0 result = some y) : y.Fits := by
  cases result with
  | success => cases ended
  | needsExtraWake =>
      cases ended
      exact .endCall single .pending
  | unfinished | failure | needsSequentialize =>
      cases ended
      exact .endCall single x.sched.status

end Instances

section Runs

variable [DecidableEq Step] {s next : State Step Item} {si : Step}
  {x : Instance Item} {c : Call Item} {gets : Gets Item}

def State.Fits (s : State Step Item) : Prop :=
  ∀ step, ∀ x ∈ s.inst step, x.Fits

theorem State.Fits.set (fits : s.Fits) {y : Option (Instance Item)} (isFit : ∀ z ∈ y, z.Fits) :
    (s.set si y).Fits := by
  intro other z isInst
  simp only [State.set] at isInst
  by_cases same : other = si
  · subst same
    rw [Function.update_self] at isInst
    exact isFit z isInst
  · rw [Function.update_of_ne same] at isInst
    exact fits other z isInst

variable [DecidableEq Item]

theorem State.Fits.put (fits : s.Fits) (item : Item) : (put s item).Fits := by
  have resumed : ∀ (group : List Step) (t : State Step Item), t.Fits →
      (group.foldl reSchedule t).Fits := by
    intro group
    induction group with
    | nil => exact fun t fits => fits
    | cons member rest inductionHypothesis =>
        intro t fits
        refine inductionHypothesis _ (fits.set fun z isInst => ?_)
        obtain ⟨x, isBefore, rfl⟩ := Option.mem_map.mp isInst
        exact fits member x isBefore
  exact resumed _ s fits

theorem State.Fits.step {action : Action Step Item} (fits : s.Fits) (alone : Alone s action)
    (stepped : FlushGets.step s action = some next) : next.Fits := by
  cases action with
  | create step isRange =>
      obtain ⟨-, isNext⟩ := Option.ite_none_right_eq_some.mp stepped
      cases isNext
      refine fits.set ?_
      rintro _ ⟨⟩
      exact .inl rfl
  | prepareBegin step kind =>
      obtain ⟨x, isInst, begun⟩ := Option.bind_eq_some_iff.mp stepped
      obtain ⟨y, isBegun, rfl⟩ := Option.map_eq_some_iff.mp begun
      refine fits.set ?_
      rintro _ ⟨⟩
      exact .prepareBegin (alone x isInst) isBegun
  | executeBegin step =>
      obtain ⟨x, isInst, rfl⟩ := Option.map_eq_some_iff.mp stepped
      refine fits.set ?_
      rintro _ ⟨⟩
      exact .executeBegin (alone x isInst)
  | call step i action =>
      obtain ⟨x, isInst, called⟩ := Option.bind_eq_some_iff.mp stepped
      obtain ⟨c, isCall, result⟩ := Option.bind_eq_some_iff.mp called
      obtain ⟨⟨sched, d, joined⟩, isStep, rfl⟩ := Option.map_eq_some_iff.mp result
      obtain ⟨single, rfl, callFits⟩ := (fits step x isInst).call isCall
      refine fits.set (y := some _) ?_
      rintro _ ⟨⟩
      exact .inr ⟨d, by rw [single]; rfl, callFits.step isStep⟩
  | prepareEnd step i result =>
      obtain ⟨x, isInst, called⟩ := Option.bind_eq_some_iff.mp stepped
      obtain ⟨c, isCall, ended⟩ := Option.bind_eq_some_iff.mp called
      obtain ⟨single, rfl, -⟩ := (fits step x isInst).call isCall
      split at ended
      · cases ended
        exact fits.set fun y isEnd => .prepareEnd single isEnd
      · cases ended
        exact fits.set fun y isEnd => .prepareEnd single isEnd
      · cases ended
  | executeEnd step i result =>
      obtain ⟨x, isInst, called⟩ := Option.bind_eq_some_iff.mp stepped
      obtain ⟨c, isCall, ended⟩ := Option.bind_eq_some_iff.mp called
      obtain ⟨single, rfl, -⟩ := (fits step x isInst).call isCall
      split at ended
      · cases ended
        exact fits.set fun y isEnd => .executeEnd single isEnd
      · cases ended
        exact fits.set fun y isEnd => .executeEnd single isEnd
      · cases ended
  | waitSuspend step =>
      obtain ⟨x, isInst, rfl⟩ := Option.map_eq_some_iff.mp stepped
      refine fits.set ?_
      rintro _ ⟨⟩
      exact .inl (alone x isInst)
  | relaunch step =>
      obtain ⟨x, isInst, rfl⟩ := Option.map_eq_some_iff.mp stepped
      refine fits.set ?_
      rintro _ ⟨⟩
      exact fits step x isInst
  | put item =>
      cases stepped
      exact fits.put item

theorem fits_of_reached (reached : Reached system Alone s) : s.Fits := by
  refine reached.invariant State.Fits ?_ ?_
  · rintro _ rfl step x ⟨⟩
  · exact fun _ _ _ _ fits alone stepped => fits.step alone stepped

/-- `flush_gets` is exact for a step if and only if there was no other reason to suspend the
instance, unless a get of the step has failed as well. -/
theorem flushGets_exact_iff (reached : Reached system Alone s) (isInst : s.inst si = some x)
    (holds : c ∈ x.calls) (running : c.run = some gets) :
    (flushGets (some x.sched) = true ↔ Failed gets) ↔
      (c.kind = .prescheduling true ∨ (∃ before ∈ c.earlier, Failed before) → Failed gets) := by
  obtain ⟨i, inside, isCall⟩ := List.getElem_of_mem holds
  obtain ⟨-, -, callFits⟩ := (fits_of_reached reached si x isInst).call
    (List.getElem?_eq_some_iff.mpr ⟨inside, isCall⟩)
  obtain ⟨-, isFlag⟩ := callFits.run running
  have throws : flushGets (some x.sched) = true ↔ c.Suspended := by simpa [flushGets] using isFlag
  rw [throws]
  simp only [Call.Suspended, running, Option.mem_def, Option.some.injEq, exists_eq_left']
  constructor
  · intro isExact other
    exact isExact.mp (other.imp_right .inl)
  · intro reason
    refine ⟨fun suspended => ?_, fun failed => .inr (.inr failed)⟩
    rcases suspended with extra | before | failed
    · exact reason (.inl extra)
    · exact reason (.inr before)
    · exact failed

end Runs

def start : State Nat Nat where
  inst _ := none
  present _ := false
  waiting := []

/-- The item of a failed get is put before the step calls `flush_gets`. -/
theorem flushGets_exact_putBefore : ∃ s x c, system.run Alone start
      [.create 0 false, .prepareBegin 0 .preparing, .prepareEnd 0 0 .prepared, .executeBegin 0,
        .call 0 0 .beginRun, .call 0 0 (.unsafeGet 7), .put 7] = some s ∧
    s.inst 0 = some x ∧ c ∈ x.calls ∧ c.run = some [(7, false)] ∧ s.present 7 = true ∧
      (flushGets (some x.sched) = true ↔ Failed [(7, false)]) := by
  have reached : Reached system Alone _ := Reached.run (.initial rfl)
    [.create 0 false, .prepareBegin 0 .preparing, .prepareEnd 0 0 .prepared, .executeBegin 0,
      .call 0 0 .beginRun, .call 0 0 (.unsafeGet 7), .put 7] rfl
  let c : Call Nat := { kind := .executing, earlier := [], run := some [(7, false)] }
  let x : Instance Nat :=
    { sched := { nSuspenders := 1, wasSuspendedSinceReset := true, status := .prepared },
      isRange := false, inited := true, calls := [c] }
  have holds : c ∈ x.calls := List.mem_singleton.mpr rfl
  have running : c.run = some [(7, false)] := rfl
  refine ⟨_, x, c, rfl, rfl, holds, running, rfl, ?_⟩
  refine (flushGets_exact_iff reached (show State.inst _ 0 = some x from rfl) holds running).mpr
    fun _ => ?_
  exact ⟨(7, false), List.mem_singleton.mpr rfl, rfl⟩

/-- In a range, a step throws after an earlier sub-step has missed an item. -/
theorem flushGets_throws_after : ¬ ∀ s : State Nat Nat, Reachable system s →
    ∀ si x c gets, s.inst si = some x → c ∈ x.calls → c.run = some gets →
      (flushGets (some x.sched) = true ↔ Failed gets) := by
  intro always
  have reached : Reachable system _ := Reached.run (.initial rfl)
    [.put 8, .create 0 true, .prepareBegin 0 .preparing, .prepareEnd 0 0 .prepared,
      .executeBegin 0, .call 0 0 .tagsPrepared, .call 0 0 .beginRun, .call 0 0 (.unsafeGet 7),
      .call 0 0 .flushGets, .call 0 0 .beginRun, .call 0 0 (.unsafeGet 8)] rfl
  obtain ⟨entry, member, missed⟩ :=
    (always _ reached 0 _ _ _ rfl (List.mem_singleton.mpr rfl) rfl).mp rfl
  rw [List.mem_singleton.mp member] at missed
  cases missed

end CnC.FlushGets
