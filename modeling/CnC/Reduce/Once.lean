import CnC.Reduce.Owned

/-!
# The put of the value

The owner switches the reduction to BCAST_DONE once.  It puts the value under the lock of the
reduction, and not again when the status is DONE.
-/

namespace CnC.Reduce

open Network Transition

variable {n : Nat} {Thread α : Type} {owner me : Fin n} {count : Int}

def Pc.holds : Pc n α → Bool
  | putStatus _ | putOut | putDone | putUnlock _ => true
  | _ => false

structure Process.Once (owner me : Fin n) (process : Process n Thread α) : Prop where
  fired : process.log.fired ≤ 1
  spent : 0 < process.log.fired →
    process.tls.status ≠ .localOnly ∧ process.tls.status ≠ .cntAvailable
  locked : ∀ thread, (process.pcs thread).holds = true → process.tls.locked = true
  alone : ∀ thread other, (process.pcs thread).holds = true →
    (process.pcs other).holds = true → thread = other
  unput : ∀ thread, process.pcs thread = .putOut → process.log.out = []
  put : process.log.out = [] ∨ process.log.out.length = 1 ∧
    (process.tls.status = .done ∨ ∃ thread, process.pcs thread = .putDone)
  other : me ≠ owner → process.log.fired = 0 ∧ process.log.out = []

section Steps

variable [DecidableEq Thread] {process next : Process n Thread α} {thread : Option Thread}
  {pc : Pc n α}

theorem Process.Once.change (once : process.Once owner me)
    (pcs : next.pcs = (process.goto thread pc).pcs)
    (holds : pc.holds = (process.pcs thread).holds) (notOut : pc ≠ .putOut)
    (notDone : process.pcs thread ≠ .putDone)
    (sameLocked : next.tls.locked = process.tls.locked)
    (sameOut : next.log.out = process.log.out)
    (done : process.tls.status = .done → next.tls.status = .done)
    (fired : next.log.fired ≤ 1)
    (spent : 0 < next.log.fired →
      next.tls.status ≠ .localOnly ∧ next.tls.status ≠ .cntAvailable)
    (other : me ≠ owner → next.log.fired = 0) : next.Once owner me := by
  have sameHolds (other : Option Thread) : (next.pcs other).holds = (process.pcs other).holds := by
    rw [pcs, pcs_goto]
    split
    · rename_i same
      rw [same, holds]
    · rfl
  refine ⟨fired, spent, fun other => ?_, fun thread other => ?_, fun other isOut => ?_, ?_,
    fun notMe => ⟨other notMe, ?_⟩⟩
  · rw [sameHolds, sameLocked]
    exact once.locked other
  · rw [sameHolds, sameHolds]
    exact once.alone thread other
  · rw [pcs, pcs_goto] at isOut
    rw [sameOut]
    split at isOut
    · exact absurd isOut notOut
    · exact once.unput other isOut
  · rw [sameOut]
    refine once.put.imp_right (And.imp_right (Or.imp done ?_))
    rintro ⟨other, isDone⟩
    refine ⟨other, ?_⟩
    rw [pcs, pcs_goto, if_neg]
    · exact isDone
    · rintro rfl
      exact notDone isDone
  · rw [sameOut]
    exact (once.other notMe).2

theorem Process.Once.quiet (once : process.Once owner me)
    (pcs : next.pcs = (process.goto thread pc).pcs)
    (holds : pc.holds = (process.pcs thread).holds) (notOut : pc ≠ .putOut)
    (notDone : process.pcs thread ≠ .putDone)
    (sameLocked : next.tls.locked = process.tls.locked)
    (sameStatus : next.tls.status = process.tls.status)
    (sameOut : next.log.out = process.log.out)
    (sameFired : next.log.fired = process.log.fired) : next.Once owner me := by
  refine once.change pcs holds notOut notDone sameLocked sameOut ?_ ?_ ?_ ?_
  · rw [sameStatus]
    exact id
  · rw [sameFired]
    exact once.fired
  · rw [sameFired, sameStatus]
    exact once.spent
  · rw [sameFired]
    exact fun notMe => (once.other notMe).1

theorem Process.Once.raise (once : process.Once owner me)
    (pcs : next.pcs = (process.goto thread pc).pcs)
    (holds : pc.holds = (process.pcs thread).holds) (notOut : pc ≠ .putOut)
    (notDone : process.pcs thread ≠ .putDone)
    (sameLocked : next.tls.locked = process.tls.locked)
    (sameOut : next.log.out = process.log.out)
    (sameFired : next.log.fired = process.log.fired)
    (done : process.tls.status = .done → next.tls.status = .done)
    (spent : process.tls.status ≠ .localOnly → process.tls.status ≠ .cntAvailable →
      next.tls.status ≠ .localOnly ∧ next.tls.status ≠ .cntAvailable) : next.Once owner me := by
  refine once.change pcs holds notOut notDone sameLocked sameOut done ?_ ?_ ?_
  · rw [sameFired]
    exact once.fired
  · rw [sameFired]
    exact fun fired => spent (once.spent fired).1 (once.spent fired).2
  · rw [sameFired]
    exact fun notMe => (once.other notMe).1

omit [DecidableEq Thread] in
theorem Plain.holds {pc' : Pc n α} (moved : Plain me process pc pc') :
    pc'.holds = pc.holds ∧ pc ≠ .putDone ∧
      (pc' = .putOut → ∃ fromCount, pc = .putStatus fromCount ∧ process.tls.status ≠ .done) := by
  cases moved with
  | putFirst first => exact ⟨rfl, by simp, fun _ => ⟨_, rfl, first⟩⟩
  | _ => exact ⟨rfl, by simp, by simp⟩

theorem Process.Once.first {fromCount : Bool} (once : process.Once owner me)
    (isPc : process.pcs thread = .putStatus fromCount) (first : process.tls.status ≠ .done) :
    (process.goto thread .putOut).Once owner me := by
  have unput : process.log.out = [] := by
    refine once.put.resolve_right ?_
    rintro ⟨-, done | ⟨other, isDone⟩⟩
    · exact first done
    · have same := once.alone thread other (by rw [isPc]; rfl) (by rw [isDone]; rfl)
      rw [← same, isPc] at isDone
      cases isDone
  have sameHolds (other : Option Thread) :
      ((process.goto thread .putOut).pcs other).holds = (process.pcs other).holds := by
    rw [pcs_goto]
    split
    · rename_i same
      rw [same, isPc]
      rfl
    · rfl
  refine ⟨once.fired, once.spent, fun other => ?_, fun thread other => ?_, fun _ _ => unput,
    .inl unput, once.other⟩
  · rw [sameHolds]
    exact once.locked other
  · rw [sameHolds, sameHolds]
    exact once.alone thread other

theorem Process.Once.lock {fromCount : Bool} (once : process.Once owner me)
    (unlocked : process.tls.locked = false) :
    Process.Once owner me { process.goto thread (.putStatus fromCount) with
      tls := { process.tls with locked := true } } := by
  have free (other : Option Thread) : (process.pcs other).holds = false := by
    by_contra holds
    exact absurd (once.locked other (eq_true_of_ne_false holds)) (by simp [unlocked])
  have held (other : Option Thread)
      (holds : ((process.goto thread (.putStatus fromCount)).pcs other).holds = true) :
      other = thread := by
    by_contra different
    rw [pcs_goto, if_neg different, free other] at holds
    cases holds
  refine ⟨once.fired, once.spent, fun _ _ => rfl,
    fun first second isFirst isSecond => (held first isFirst).trans (held second isSecond).symm,
    fun other isOut => ?_, ?_, once.other⟩
  · change (process.goto thread (.putStatus fromCount)).pcs other = _ at isOut
    rw [pcs_goto] at isOut
    split at isOut
    · cases isOut
    · exact once.unput other isOut
  · refine once.put.imp_right (And.imp_right (Or.imp_right ?_))
    rintro ⟨other, isDone⟩
    exact absurd (free other) (by rw [isDone]; exact Bool.true_eq_false_eq_False)

omit [DecidableEq Thread] in
theorem Process.Once.free (once : process.Once owner me) {other : Option Thread}
    (holds : (process.pcs thread).holds = true) (different : other ≠ thread) :
    (process.pcs other).holds = false := by
  by_contra also
  exact different (once.alone other thread (eq_true_of_ne_false also) holds)

theorem Process.Once.proceed (once : process.Once owner me)
    (holds : (process.pcs thread).holds = true)
    (pcs : next.pcs = (process.goto thread pc).pcs) (notOut : pc ≠ .putOut)
    (locked : pc.holds = true → next.tls.locked = true)
    (put : next.log.out = [] ∨ next.log.out.length = 1 ∧
      (next.tls.status = .done ∨ pc = .putDone))
    (fired : next.log.fired = process.log.fired)
    (status : next.tls.status = process.tls.status ∨ next.tls.status = .done)
    (other : me ≠ owner → next.log.out = []) : next.Once owner me := by
  have held (other : Option Thread) (isHeld : (next.pcs other).holds = true) :
      other = thread ∧ pc.holds = true := by
    rw [pcs, pcs_goto] at isHeld
    split at isHeld
    · rename_i same
      exact ⟨same, isHeld⟩
    · rename_i different
      rw [once.free holds different] at isHeld
      cases isHeld
  refine ⟨?_, fun isFired => ?_, fun other isHeld => locked (held other isHeld).2,
    fun first second isFirst isSecond => (held first isFirst).1.trans (held second isSecond).1.symm,
    fun other isOut => ?_, ?_, fun notMe => ⟨?_, other notMe⟩⟩
  · rw [fired]
    exact once.fired
  · rw [fired] at isFired
    rcases status with same | done
    · rw [same]
      exact once.spent isFired
    · rw [done]
      exact ⟨by decide, by decide⟩
  · have isThread := (held other (by rw [isOut]; rfl)).1
    rw [pcs, pcs_goto, if_pos isThread] at isOut
    exact absurd isOut notOut
  · refine put.imp_right (And.imp_right (Or.imp_right fun isDone => ⟨thread, ?_⟩))
    rw [pcs, pcs_goto, if_pos rfl, isDone]
  · rw [fired]
    exact (once.other notMe).1

variable [Mul α] [One α] [Inhabited α] {sent : List (Fin n × Msg n α)} {stage : Stage}

theorem Process.Once.moved (once : process.Once owner me)
    (owned : process.Owned owner count stage me)
    (operation : Next me count process thread next sent) : next.Once owner me := by
  have fits := owned.pcs thread
  cases operation with
  | plain isPlain =>
      obtain ⟨holds, notDone, isOut⟩ := isPlain.holds
      rename_i pc
      by_cases toOut : pc = .putOut
      · obtain ⟨fromCount, isPc, first⟩ := isOut toOut
        rw [toOut]
        exact once.first isPc first
      · exact once.quiet rfl holds toOut notDone rfl rfl rfl rfl
  | fire isPc available =>
      rw [isPc] at fits
      have unfired : process.log.fired = 0 := by
        by_contra fired
        exact (once.spent (Nat.pos_of_ne_zero fired)).2 available
      refine once.change rfl (by rw [isPc]; rfl) (by simp) (by simp [isPc]) rfl rfl ?_ ?_ ?_ ?_
      · rw [available]
        exact fun impossible => nomatch impossible
      · exact Nat.le_of_eq (congrArg (· + 1) unfired)
      · exact fun _ => ⟨by simp, by simp⟩
      · exact fun notMe => absurd fits.1 notMe
  | doneFinish isPc =>
      refine once.raise rfl (by rw [isPc]; rfl) (by simp) (by simp [isPc]) rfl rfl rfl
        (fun done => by simp [switch, done]) fun notLocal notAvailable => ?_
      cases isStatus : process.tls.status <;> simp_all [switch]
  | valueDone isPc =>
      exact once.raise rfl (by rw [isPc]; rfl) (by simp) (by simp [isPc]) rfl rfl rfl
        (fun _ => rfl) fun _ _ => ⟨by simp, by simp⟩
  | raise raises =>
      refine once.raise rfl ?_ ?_ ?_ rfl rfl rfl (fun done => by simp [switch, done])
        fun notLocal notAvailable => ?_
      · cases isPc : process.pcs thread <;> rw [isPc] at raises <;> cases raises <;> rfl
      · cases isPc : process.pcs thread <;> rw [isPc] at raises <;> cases raises <;> simp
      · cases isPc : process.pcs thread <;> rw [isPc] at raises <;> cases raises <;> simp
      · cases isStatus : process.tls.status <;> simp_all [switch]
  | putLock isPc unlocked => exact once.lock unlocked
  | putOut isPc =>
      rw [isPc] at fits
      have holds : (process.pcs thread).holds = true := by rw [isPc]; rfl
      exact once.proceed holds rfl (by simp) (fun _ => once.locked thread holds)
        (.inr ⟨by simp [once.unput thread isPc], .inr rfl⟩) rfl (.inl rfl)
        fun notMe => absurd fits.1 notMe
  | putDone isPc =>
      have holds : (process.pcs thread).holds = true := by rw [isPc]; rfl
      exact once.proceed holds rfl (by simp) (fun _ => once.locked thread holds)
        (once.put.imp_right fun put => ⟨put.1, .inl rfl⟩) rfl (.inr rfl)
        fun notMe => (once.other notMe).2
  | putUnlock isPc =>
      have holds : (process.pcs thread).holds = true := by rw [isPc]; rfl
      refine once.proceed holds (notPut_pcs ..) ?_ ?_ ?_ (notPut_fired ..) (.inl rfl) ?_
      · split <;> simp
      · intro impossible
        split at impossible <;> cases impossible
      · rw [notPut_out]
        refine once.put.imp_right (And.imp_right ?_)
        rintro (done | ⟨other, isDone⟩)
        · exact .inl done
        · have same := once.alone other thread (by rw [isDone]; rfl) holds
          rw [same, isPc] at isDone
          cases isDone
      · rw [notPut_out]
        exact fun notMe => (once.other notMe).2
  | putFewer isPc fewer =>
      refine once.quiet (notPut_pcs ..) ?_ ?_ (by simp [isPc]) (by rw [notPut_tls])
        (by rw [notPut_tls]) ?_ (notPut_fired ..)
      · rw [isPc]
        split <;> rfl
      · split <;> simp
      · rw [notPut_out]
  | learn learns =>
      refine once.quiet rfl ?_ ?_ ?_ rfl rfl rfl rfl
      all_goals cases isPc : process.pcs thread <;> rw [isPc] at learns <;> cases learns <;>
        first | rfl | simp
  | guard guards =>
      refine once.quiet rfl ?_ ?_ ?_ rfl rfl rfl rfl
      all_goals cases isPc : process.pcs thread <;> rw [isPc] at guards <;> cases guards <;>
        first | rfl | simp
  | store stores =>
      refine once.quiet rfl ?_ ?_ ?_ rfl rfl rfl rfl
      all_goals cases isPc : process.pcs thread <;> rw [isPc] at stores <;> cases stores <;>
        first | rfl | simp
  | await awaits =>
      refine once.quiet rfl ?_ ?_ ?_ rfl rfl rfl rfl
      all_goals cases isPc : process.pcs thread <;> rw [isPc] at awaits <;> cases awaits <;>
        first | rfl | simp
  | exchange isPc | subValue isPc =>
      refine once.quiet rfl ?_ ?_ (by simp [isPc]) rfl rfl rfl rfl
      · rw [isPc]
        split <;> rfl
      · split <;> simp
  | gatherRelease isPc =>
      refine once.quiet rfl ?_ ?_ (by simp [isPc]) rfl rfl (Log.gather_out ..)
        (Log.gather_fired ..)
      · rw [isPc]
        split <;> rfl
      · split <;> simp
  | _ isPc => exact once.quiet rfl (by rw [isPc]; rfl) (by simp) (by simp [isPc]) rfl rfl rfl rfl

end Steps

section Runs

variable [DecidableEq Thread] {s next : State n Thread α}

omit [DecidableEq Thread] in
theorem setProc_forall {property : Fin n → Process n Thread α → Prop} {pid : Fin n}
    {process : Process n Thread α} (before : ∀ i, property i (s.proc i))
    (changed : property pid process) (i : Fin n) :
    property i ((s.setProc pid process).proc i) := by
  by_cases same : i = pid
  · subst same
    simpa [State.setProc] using changed
  · simpa [State.setProc, same] using before i

variable [Mul α] [One α] [Inhabited α]

theorem once_of_reached {allowed : State n Thread α → Action n Thread α → Prop}
    (reached : Reached (system owner count) allowed s) (pid : Fin n) :
    (s.proc pid).Once owner pid := by
  revert pid
  refine reached.invariant (fun state => ∀ pid, (state.proc pid).Once owner pid) ?_ ?_
  · rintro state rfl pid
    exact ⟨Nat.zero_le 1, fun fired => absurd fired (Nat.lt_irrefl 0),
      fun _ holds => (nomatch holds), fun _ _ holds => (nomatch holds), fun _ _ => rfl, .inl rfl,
      fun _ => ⟨rfl, rfl⟩⟩
  · intro state action next before once _ stepped
    have owned := owned_of_reached before
    cases taken_of_step stepped with
    | @putItem pid thread val isPc =>
        refine setProc_forall once ?_
        exact (once pid).quiet rfl (by rw [isPc]; rfl) (by simp) (by simp [isPc]) rfl rfl rfl rfl
    | @putCount thread isPc =>
        refine setProc_forall once ((once owner).quiet rfl ?_ ?_ (by simp [isPc]) rfl rfl rfl rfl)
        · rw [isPc]
          split <;> rfl
        · split <;> simp
    | @receive source target message rest isPc head =>
        refine setProc_forall once ((once target).quiet rfl ?_ ?_ (by simp [isPc]) rfl rfl
          (Log.hear_out ..) (Log.hear_fired ..))
        · rw [isPc]
          cases message <;> rfl
        · cases message <;> simp [handler]
    | @run pid thread process sent moved =>
        exact setProc_forall once ((once pid).moved (owned.everywhere.processes pid) moved)

end Runs

end CnC.Reduce
