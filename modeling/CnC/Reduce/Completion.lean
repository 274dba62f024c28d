import CnC.Reduce.ValuePhase

/-!
# Completion of a reduction

When the owner has all counts, some thread of it looks at them and switches to BCAST_DONE, unless
they have come in while it was broadcasting the count: it does not look again when it releases the
broadcast.  After the switch the values are gathered, and one value is put.
-/

namespace CnC.Reduce

open Convergecast Network Transition

variable {n : Nat} {Thread α : Type} {owner me : Fin n} {count : Int}

namespace Pc

def Unfinished : Pc n α → Prop
  | doneValues _ | doneBcast _ | doneAdd _ | doneFinish => True
  | _ => False

def Finishes (count : Int) : Pc n α → Prop
  | valueOwner | valueStatus | valueN | valueReduced _ | putReduced false | putLock false
  | putStatus false | putOut => True
  | putN false loaded => loaded = count
  | _ => False

def Checks (count : Int) : Pc n α → Prop
  | itemStatus counted | itemOwner counted | itemTest counted => counted = count
  | itemCounts | gatherRelease _ _ | gatherOwner | gatherN | gatherTest _ | doneOwner _
  | doneSwitch _ => True
  | _ => False

def Reports : Pc n α → Prop
  | itemStatus _ | itemOwner _ | itemSend | exchange _ _ => True
  | _ => False

def Answers : Pc n α → Prop
  | countN | putReduced true | putN true _ | putLock true | putStatus true | putUnlock true
  | putOut => True
  | _ => False

end Pc

section Steps

variable [DecidableEq Thread] {process next : Process n Thread α} {thread : Option Thread}
  {pc : Pc n α} {property : Pc n α → Prop} {other : Prop}

theorem exists_pc (pcs : next.pcs = (process.goto thread pc).pcs) (holds : property pc) :
    ∃ t, property (next.pcs t) :=
  ⟨thread, by rwa [pcs, pcs_goto, if_pos rfl]⟩

theorem exists_pcs (pcs : next.pcs = (process.goto thread pc).pcs)
    (goes : property (process.pcs thread) → property pc ∨ other)
    (before : ∃ t, property (process.pcs t)) : (∃ t, property (next.pcs t)) ∨ other := by
  obtain ⟨t, holds⟩ := before
  by_cases same : t = thread
  · subst same
    exact (goes holds).imp_left (exists_pc pcs)
  · exact .inl ⟨t, by rwa [pcs, pcs_goto, if_neg same]⟩

structure Process.Status (owner me : Fin n) (process : Process n Thread α) : Prop where
  fired : me = owner → process.tls.status = .bcastDone ∨ process.tls.status = .finish →
    0 < process.log.fired
  done : me = owner → process.tls.status = .done → process.log.out ≠ []
  put : ∀ thread, process.pcs thread = .putDone → process.log.out ≠ []
  broadcast : me = owner → process.tls.status = .bcastDone →
    ∃ thread, (process.pcs thread).Unfinished

theorem Process.Status.keep (status : process.Status owner me)
    (pcs : next.pcs = (process.goto thread pc).pcs)
    (same : next.tls.status = process.tls.status)
    (fired : next.log.fired = process.log.fired)
    (out : process.log.out ≠ [] → next.log.out ≠ [])
    (put : pc = .putDone → next.log.out ≠ [])
    (unfinished : (process.pcs thread).Unfinished → pc.Unfinished) : next.Status owner me := by
  refine ⟨fun isOwner isStatus => ?_, fun isOwner isDone => ?_, fun other isPc => ?_,
    fun isOwner isStatus => ?_⟩
  · rw [fired]
    exact status.fired isOwner (by rwa [same] at isStatus)
  · exact out (status.done isOwner (same ▸ isDone))
  · rw [pcs, pcs_goto] at isPc
    split at isPc
    · exact put isPc
    · exact out (status.put other isPc)
  · have before := status.broadcast isOwner (same ▸ isStatus)
    exact (exists_pcs pcs (fun holds => .inl (unfinished holds)) before).resolve_right id

variable [Mul α] [One α] [Inhabited α] {sent : List (Fin n × Msg n α)} {stage : Stage}

theorem Process.Status.moved (status : process.Status owner me)
    (owned : process.Owned owner count stage me)
    (moved : Next me count process thread next sent) : next.Status owner me := by
  have fits := owned.pcs thread
  have before := status.put thread
  cases moved with
  | plain isPlain =>
      refine status.keep rfl rfl rfl id ?_ ?_
      · rintro rfl
        cases isPc : process.pcs thread <;> rw [isPc] at isPlain <;> cases isPlain
      · cases isPc : process.pcs thread <;> rw [isPc] at isPlain <;> cases isPlain <;> exact id
  | learn learns =>
      refine status.keep rfl rfl rfl id ?_ ?_
      all_goals cases isPc : process.pcs thread <;> rw [isPc] at learns <;> cases learns
      all_goals first | exact id | rintro ⟨⟩
  | guard guards =>
      refine status.keep rfl rfl rfl id ?_ ?_
      all_goals cases isPc : process.pcs thread <;> rw [isPc] at guards <;> cases guards
      all_goals first | exact id | exact fun _ => trivial | rintro ⟨⟩
  | store stores =>
      refine status.keep rfl rfl rfl id ?_ ?_
      all_goals cases isPc : process.pcs thread <;> rw [isPc] at stores <;> cases stores
      all_goals first | exact id | rintro ⟨⟩
  | await awaits =>
      refine status.keep rfl rfl rfl id ?_ ?_
      all_goals cases isPc : process.pcs thread <;> rw [isPc] at awaits <;> cases awaits
      all_goals first | exact id | rintro ⟨⟩
  | @raise pc raises =>
      have goes : pc ≠ .putDone ∧ ((process.pcs thread).Unfinished → pc.Unfinished) := by
        cases isPc : process.pcs thread <;> rw [isPc] at raises <;> cases raises
        all_goals exact ⟨by rintro ⟨⟩, id⟩
      by_cases isLocal : process.tls.status = .localOnly
      · refine ⟨fun _ => ?_, fun _ => ?_, fun other isPc => ?_, fun _ => ?_⟩
        · change switch _ _ _ = _ ∨ switch _ _ _ = _ → _
          rw [switch, if_pos isLocal]
          rintro (isBcast | isFinish)
          · cases isBcast
          · cases isFinish
        · change switch _ _ _ = _ → _
          rw [switch, if_pos isLocal]
          rintro ⟨⟩
        · rw [pcs_goto] at isPc
          split at isPc
          · exact absurd isPc goes.1
          · exact status.put other isPc
        · change switch _ _ _ = _ → _
          rw [switch, if_pos isLocal]
          rintro ⟨⟩
      · exact status.keep rfl (if_neg isLocal) rfl id (fun isPut => absurd isPut goes.1) goes.2
  | fire isPc available =>
      refine ⟨fun _ _ => Nat.succ_pos _, fun _ => by rintro ⟨⟩, fun other isPut => ?_, fun _ _ => ?_⟩
      · rw [pcs_goto] at isPut
        split at isPut
        · cases isPut
        · exact status.put other isPut
      · exact exists_pc (show _ = (process.goto thread (.doneValues me)).pcs from rfl) trivial
  | doneFinish isPc =>
      have isStatus : switch .bcastDone .finish process.tls.status ≠ .bcastDone := by
        unfold switch
        split
        · decide
        · assumption
      have kept (isDone : switch .bcastDone .finish process.tls.status = .done) :
          process.tls.status = .done := by
        unfold switch at isDone
        split at isDone
        · cases isDone
        · exact isDone
      refine ⟨fun isOwner isFinish => status.fired isOwner ?_,
        fun isOwner isDone => status.done isOwner (kept isDone), fun other isPut => ?_,
        fun _ impossible => absurd impossible isStatus⟩
      · have isFinish := isFinish.resolve_left isStatus
        change switch .bcastDone .finish process.tls.status = .finish at isFinish
        unfold switch at isFinish
        split at isFinish
        · exact .inl (by assumption)
        · exact .inr isFinish
      · rw [pcs_goto] at isPut
        split at isPut
        · cases isPut
        · exact status.put other isPut
  | valueDone isPc =>
      rw [isPc] at fits
      refine ⟨fun isOwner => absurd isOwner fits.1, fun isOwner => absurd isOwner fits.1,
        fun other isPut => ?_, fun isOwner => absurd isOwner fits.1⟩
      rw [pcs_goto] at isPut
      split at isPut
      · cases isPut
      · exact status.put other isPut
  | putDone isPc =>
      have isOut := before isPc
      refine ⟨fun _ later => ?_, fun _ _ => isOut, fun _ _ => isOut, fun _ => by rintro ⟨⟩⟩
      rcases later with isBcast | isFinish
      · cases isBcast
      · cases isFinish
  | putOut isPc =>
      have nonempty {values : List α} {value : α} : values ++ [value] ≠ [] :=
        List.append_ne_nil_of_right_ne_nil _ (List.cons_ne_nil _ _)
      refine status.keep rfl rfl rfl (fun _ => nonempty) (fun _ => nonempty) ?_
      rw [isPc]
      exact id
  | exchange isPc | subValue isPc =>
      refine status.keep rfl rfl rfl id (fun isPut => ?_) ?_
      · split at isPut <;> cases isPut
      · rw [isPc]
        exact False.elim
  | gatherRelease isPc =>
      refine status.keep rfl rfl (Log.gather_fired ..) (by rw [Log.gather_out]; exact id)
        (fun isPut => ?_) ?_
      · split at isPut <;> cases isPut
      · rw [isPc]
        exact False.elim
  | putFewer isPc | putUnlock isPc =>
      refine status.keep (notPut_pcs ..) (by simp only [notPut_tls]) (notPut_fired ..)
        (by simp only [notPut_out]; exact id) (fun isPut => ?_) ?_
      · split at isPut <;> cases isPut
      · rw [isPc]
        exact False.elim
  | _ isPc =>
      refine status.keep rfl rfl rfl id (by rintro ⟨⟩) ?_
      rw [isPc]
      first | exact False.elim | exact fun _ => trivial

def Process.Finishes (owner : Fin n) (count : Int) (me : Fin n) (process : Process n Thread α) :
    Prop :=
  me = owner → 0 < process.log.fired → process.tls.nValues = 0 →
    (∃ thread, (process.pcs thread).Finishes count) ∨ process.log.out ≠ []

omit [Mul α] [One α] [Inhabited α] in
theorem Process.Finishes.keep (finishes : process.Finishes owner count me)
    (pcs : next.pcs = (process.goto thread pc).pcs)
    (fired : next.log.fired = process.log.fired) (nValues : next.tls.nValues = process.tls.nValues)
    (out : process.log.out ≠ [] → next.log.out ≠ [])
    (goes : me = owner → 0 < process.log.fired → process.tls.nValues = 0 →
      (process.pcs thread).Finishes count → pc.Finishes count ∨ next.log.out ≠ []) :
    next.Finishes owner count me := by
  intro isOwner hasFired isZero
  rw [fired] at hasFired
  rw [nValues] at isZero
  rcases finishes isOwner hasFired isZero with before | before
  · exact exists_pcs pcs (goes isOwner hasFired isZero) before
  · exact .inr (out before)

omit [DecidableEq Thread] [Mul α] [One α] [Inhabited α] in
theorem Plain.finishes {pc' : Pc n α} (isPlain : Plain me process pc pc') (isMe : me = owner)
    (known : process.tls.owner = some owner) (all : process.tls.nreduced = count)
    (done : process.tls.status = .finish ∨ process.log.out ≠ [])
    (put : process.tls.status = .done → process.log.out ≠ [])
    (finishes : pc.Finishes count) : pc'.Finishes count ∨ process.log.out ≠ [] := by
  subst isMe
  cases isPlain with
  | valueAlien alien => exact absurd known alien
  | valueUnfinished unfinished => exact .inr (done.resolve_left unfinished)
  | @putReduced fromCount =>
      cases fromCount with
      | true => exact finishes.elim
      | false => exact .inl all
  | @putAll fromCount =>
      cases fromCount with
      | true => exact finishes.elim
      | false => exact .inl trivial
  | putDone isDone => exact .inr (put isDone)
  | valueOwn | valueFinished | valueN | putFirst => exact .inl trivial
  | _ => exact finishes.elim

variable [Fintype Thread]

omit [DecidableEq Thread] [Mul α] [One α] [Inhabited α] in
theorem Process.TakesValue.status [DecidableEq Thread] (takes : process.TakesValue owner me)
    (status : process.Status owner me) (once : process.Once owner me)
    (fires : process.Fires owner me) (isOwner : me = owner)
    (few : process.log.values.collected.card ≤ (bcast owner me).length)
    (fired : 0 < process.log.fired) (isZero : process.tls.nValues = 0) :
    process.tls.status = .finish ∨ process.log.out ≠ [] := by
  have heard : process.log.values.heard = true := by
    rw [← Bool.toNat_eq_one]
    have isFired := fires isOwner
    have bound := Bool.toNat_le process.log.values.heard
    omega
  have isOpen := takes.isOpen isZero
  have noBias : process.sum ((valuePhase : Phase n Thread α).bias (bcast owner me).length) ≤ 0 := by
    have atLeast : _ ≤ process.tls.nValues + (process.log.values.collected.card : Int) :=
      takes.atLeast trivial heard isOpen
    omega
  have finished : process.tls.status ≠ .bcastDone := by
    intro isStatus
    obtain ⟨thread, unfinished⟩ := status.broadcast isOwner isStatus
    have two := length_bcast_le owner me
    cases isPc : process.pcs thread <;> rw [isPc] at unfinished
    case doneValues =>
        have closed := process.le_sum (valuePhase : Phase n Thread α).closed_nonneg thread
        rw [isPc, isOpen] at closed
        exact absurd closed (show ¬ (1 : Int) ≤ 0 by decide)
    case doneBcast | doneAdd =>
        have bias : process.sum ((valuePhase : Phase n Thread α).bias (bcast owner me).length) =
            1000 - (bcast owner me).length :=
          (takes.sum_bias (show _ = 1 by rw [isPc]; rfl)).trans (by rw [isPc]; rfl)
        omega
    case doneFinish =>
        have bias : process.sum ((valuePhase : Phase n Thread α).bias (bcast owner me).length) =
            1000 := (takes.sum_bias (show _ = 1 by rw [isPc]; rfl)).trans (by rw [isPc]; rfl)
        omega
    all_goals exact unfinished.elim
  obtain ⟨notLocal, notAvailable⟩ := once.spent fired
  cases isStatus : process.tls.status with
  | finish => exact .inl rfl
  | done => exact .inr (status.done isOwner isStatus)
  | localOnly => exact absurd isStatus notLocal
  | cntAvailable => exact absurd isStatus notAvailable
  | bcastDone => exact absurd isStatus finished

theorem Process.Finishes.moved (finishes : process.Finishes owner count me)
    (owned : process.Owned owner count stage me) (sound : stage.Sound)
    (isStage : me = owner → process.stage owner count = stage)
    (status : process.Status owner me) (once : process.Once owner me)
    (takes : process.TakesValue owner me) (takes' : next.TakesValue owner me)
    (fires : process.Fires owner me)
    (few : process.log.values.collected.card ≤ (bcast owner me).length)
    (all : me = owner → 0 < process.log.fired → process.tls.nreduced = count)
    (moved : Next me count process thread next sent) : next.Finishes owner count me := by
  have fits := owned.pcs thread
  have opened (isOwner : me = owner) (fired : 0 < process.log.fired) :
      process.tls.owner = some owner ∧ process.tls.n = count := by
    have isStage := isStage isOwner
    subst isStage
    have opened : process.tls.owner = some owner := sound.opened fired
    exact ⟨opened, sound.ready opened⟩
  cases moved with
  | plain isPlain =>
      refine finishes.keep rfl rfl rfl id fun isOwner fired isZero => ?_
      exact isPlain.finishes isOwner (opened isOwner fired).1 (all isOwner fired)
        (takes.status status once fires isOwner few fired isZero) (status.done isOwner)
  | fire isPc available =>
      intro isOwner _ isZero
      have unheard : process.log.values.heard = false := by
        rw [← Bool.toNat_eq_zero, ← fires isOwner]
        by_contra fired
        exact (once.spent (Nat.pos_of_ne_zero fired)).2 available
      have unset : process.tls.nValues = -1 := takes.closed trivial (.inl unheard)
      exact absurd (unset.symm.trans isZero) (by decide)
  | @guard pc nValues guards =>
      intro isOwner fired isZero
      have heard : process.log.values.heard = true := by
        rw [← Bool.toNat_eq_one, ← fires isOwner]
        have bound := once.fired
        have fired : 0 < process.log.fired := fired
        omega
      have isPositive : (valuePhase : Phase n Thread α).broadcasts pc = 1 ∧
          (valuePhase : Phase n Thread α).closed pc = 0 ∧
          0 < (valuePhase : Phase n Thread α).bias (bcast owner me).length pc := by
        have two := length_bcast_le owner me
        cases isPc : process.pcs thread <;> rw [isPc] at guards <;> cases guards
        · refine ⟨rfl, rfl, ?_⟩
          change (0 : Int) < 1000 - (bcast owner me).length
          omega
        · exact ⟨rfl, rfl, show (0 : Int) < 1000 by decide⟩
        · exact ⟨rfl, rfl, show (0 : Int) < 1 by decide⟩
      have isNext : ({ process.goto thread pc with
          tls := { process.tls with nValues := nValues } } : Process n Thread α).pcs thread = pc :=
        (pcs_goto ..).trans (if_pos rfl)
      have isOpen := (takes'.sum_closed (isNext.symm ▸ isPositive.1)).trans
        (isNext.symm ▸ isPositive.2.1)
      have bias := takes'.sum_bias (isNext.symm ▸ isPositive.1)
      have atLeast := takes'.atLeast trivial heard isOpen
      have isZero : nValues = 0 := isZero
      rw [bias, isNext] at atLeast
      change _ ≤ nValues + (process.log.values.collected.card : Int) at atLeast
      omega
  | subValue isPc =>
      intro _ _ isZero
      have isOne : process.tls.nValues = 1 := by
        have isZero : process.tls.nValues - 1 = 0 := isZero
        omega
      refine .inl (exists_pc (by rfl) ?_)
      rw [if_pos isOne]
      trivial
  | valueReduced isPc => exact finishes.keep rfl rfl rfl id fun _ _ _ _ => .inl trivial
  | @putFewer fromCount loaded isPc fewer =>
      refine finishes.keep (notPut_pcs ..) (notPut_fired ..) (by rw [notPut_tls])
        (by rw [notPut_out]; exact id) fun isOwner fired _ holds => ?_
      rw [isPc] at holds
      cases fromCount with
      | true => exact holds.elim
      | false =>
          have isAll : loaded = count := holds
          exact absurd (isAll.trans (opened isOwner fired).2.symm) fewer
  | @putLock fromCount isPc unlocked =>
      refine finishes.keep rfl rfl rfl id fun _ _ _ holds => ?_
      rw [isPc] at holds
      cases fromCount with
      | true => exact holds.elim
      | false => exact .inl trivial
  | putUnlock isPc =>
      refine finishes.keep (notPut_pcs ..) (notPut_fired ..) rfl (by rw [notPut_out]; exact id)
        fun _ _ _ holds => ?_
      rw [isPc] at holds
      exact holds.elim
  | putOut isPc => exact fun _ _ _ => .inr (List.append_ne_nil_of_right_ne_nil _ nofun)
  | gatherRelease isPc =>
      refine finishes.keep rfl (Log.gather_fired ..) rfl (by rw [Log.gather_out]; exact id)
        fun _ _ _ holds => ?_
      rw [isPc] at holds
      exact holds.elim
  | valueCombine isPc =>
      rw [isPc] at fits
      exact fun isOwner => absurd isOwner fits.1
  | learn learns =>
      refine finishes.keep rfl rfl rfl id fun _ _ _ holds => ?_
      cases isPc : process.pcs thread <;> rw [isPc] at learns holds <;> cases learns
      all_goals exact holds.elim
  | store stores =>
      refine finishes.keep rfl rfl rfl id fun _ _ _ holds => ?_
      cases isPc : process.pcs thread <;> rw [isPc] at stores holds <;> cases stores
      all_goals exact holds.elim
  | raise raises =>
      refine finishes.keep rfl rfl rfl id fun _ _ _ holds => ?_
      cases isPc : process.pcs thread <;> rw [isPc] at raises holds <;> cases raises
      all_goals exact holds.elim
  | await awaits =>
      refine finishes.keep rfl rfl rfl id fun _ _ _ holds => ?_
      cases isPc : process.pcs thread <;> rw [isPc] at awaits holds <;> cases awaits
      all_goals exact holds.elim
  | _ isPc =>
      refine finishes.keep rfl rfl rfl id fun _ _ _ holds => ?_
      rw [isPc] at holds
      exact holds.elim

structure Process.Gathered (owner : Fin n) (count : Int) (process : Process n Thread α) : Prop where
  sent : process.log.counts.sent = true
  released : process.sum (countPhase : Phase n Thread α).broadcasts = 0
  all : process.tls.nreduced = count
  collected : process.log.counts.collected.card = (bcast owner owner).length

def Process.Checks (owner : Fin n) (count : Int) (me : Fin n) (process : Process n Thread α) :
    Prop :=
  me = owner → process.Gathered owner count →
    (∃ thread, (process.pcs thread).Checks count) ∨ 0 < process.log.fired ∨ process.log.out ≠ []

def Pc.releases : Pc n α → Bool
  | .bcastRelease _ => true
  | _ => false

/-- When the owner releases the broadcast of the count, a reply is missing, or items have not been
counted, or the reduction has been switched to BCAST_DONE, or another thread is still to compare
the counts. -/
def Rechecks (owner : Fin n) (count : Int) (me : Fin n) (process : Process n Thread α)
    (thread : Option Thread) : Prop :=
  (process.pcs thread).releases = true → me = owner →
    process.log.counts.collected.card ≠ (bcast owner owner).length ∨
      process.tls.nreduced ≠ count ∨ 0 < process.log.fired ∨
      ∃ other, (process.pcs other).Checks count

instance (count : Int) : DecidablePred (Pc.Checks count : Pc n α → Prop) := fun pc => by
  unfold Pc.Checks
  split <;> infer_instance

instance (owner : Fin n) (count : Int) (me : Fin n) (process : Process n Thread α)
    (thread : Option Thread) : Decidable (Rechecks owner count me process thread) :=
  inferInstanceAs (Decidable (_ → _ → _))

omit [Mul α] [One α] [Inhabited α] in
theorem Process.Checks.keep (checks : process.Checks owner count me)
    (pcs : next.pcs = (process.goto thread pc).pcs)
    (gathered : next.Gathered owner count → process.Gathered owner count)
    (fired : process.log.fired ≤ next.log.fired)
    (out : process.log.out ≠ [] → next.log.out ≠ [])
    (goes : me = owner → process.Gathered owner count → (process.pcs thread).Checks count →
      pc.Checks count ∨ 0 < next.log.fired ∨ next.log.out ≠ []) :
    next.Checks owner count me := by
  intro isOwner isGathered
  rcases checks isOwner (gathered isGathered) with before | before
  · exact exists_pcs pcs (goes isOwner (gathered isGathered)) before
  · exact .inr (before.imp (fun hasFired => hasFired.trans_le fired) out)

omit [Mul α] [One α] [Inhabited α] in
theorem Process.Gathered.of_goto (gathered : next.Gathered owner count)
    (pcs : next.pcs = (process.goto thread pc).pcs)
    (broadcasts : (countPhase : Phase n Thread α).broadcasts pc =
      (countPhase : Phase n Thread α).broadcasts (process.pcs thread))
    (counts : next.log.counts = process.log.counts)
    (nreduced : next.tls.nreduced = process.tls.nreduced) : process.Gathered owner count where
  sent := counts ▸ gathered.sent
  released := by
    have released := gathered.released
    rwa [Process.sum_goto pcs, broadcasts, sub_add_cancel] at released
  all := nreduced ▸ gathered.all
  collected := counts ▸ gathered.collected

omit [Mul α] [One α] [Inhabited α] in
theorem broadcasting_ne_zero (pcs : next.pcs = (process.goto thread pc).pcs)
    (broadcasts : (countPhase : Phase n Thread α).broadcasts pc = 1) :
    next.sum (countPhase : Phase n Thread α).broadcasts ≠ 0 := by
  have le := next.le_sum (countPhase : Phase n Thread α).broadcasts_nonneg thread
  rw [pcs, pcs_goto, if_pos rfl, broadcasts] at le
  omega

omit [DecidableEq Thread] [Mul α] [One α] [Inhabited α] in
theorem Process.TakesCount.nCounts_le [DecidableEq Thread] (takes : process.TakesCount owner owner)
    (sent : process.log.counts.sent = true)
    (released : process.sum (countPhase : Phase n Thread α).broadcasts = 0) :
    process.tls.nCounts + process.log.counts.collected.card ≤ (bcast owner owner).length := by
  obtain ⟨heard, isOpen, -⟩ := takes.closed_of_unsent sent
  have atMost : process.tls.nCounts + (process.log.counts.collected.card : Int) ≤ _ :=
    takes.atMost heard isOpen
  have unbiased : process.sum ((countPhase : Phase n Thread α).bias (bcast owner owner).length) =
      0 := by
    refine Finset.sum_eq_zero fun other _ => countPhase.bias_eq_zero _ _ ?_
    have le := process.le_sum (countPhase : Phase n Thread α).broadcasts_nonneg other
    have nonneg := (countPhase : Phase n Thread α).broadcasts_nonneg (process.pcs other)
    omega
  rwa [unbiased, add_zero] at atMost

omit [DecidableEq Thread] [Mul α] [One α] [Inhabited α] [Fintype Thread] in
theorem Plain.checks {pc' : Pc n α} (isPlain : Plain me process pc pc') (isMe : me = owner)
    (fits : pc.Fits owner count stage me) (known : process.tls.owner = some owner)
    (later : process.tls.status ≠ .localOnly) (ready : process.tls.n = count)
    (gathered : process.tls.nCounts ≤ 0) (all : process.tls.nreduced = count)
    (status : process.Status owner me) (checks : pc.Checks count) :
    pc'.Checks count ∨ 0 < process.log.fired ∨ process.log.out ≠ [] := by
  subst isMe
  cases isPlain with
  | itemLocal isLocal => exact absurd isLocal later
  | itemAlien alien | gatherAlien alien => exact absurd known alien
  | itemFewer fewer => exact absurd ((show _ = count from checks).trans ready.symm) fewer
  | itemGathering gathering => exact absurd gathering (not_lt.mpr gathered)
  | gatherFewer fewer => exact absurd (fits.2.2.trans all.symm) fewer
  | itemStatus | itemOwn => exact .inl checks
  | itemAll | itemDone | gatherOwn | gatherN | gatherAll => exact .inl trivial
  | doneAlready already =>
      refine .inr ?_
      cases isStatus : process.tls.status with
      | localOnly => exact absurd isStatus later
      | cntAvailable => exact absurd isStatus already
      | bcastDone => exact .inl (status.fired rfl (.inl isStatus))
      | finish => exact .inl (status.fired rfl (.inr isStatus))
      | done => exact .inr (status.done rfl isStatus)
  | _ => exact checks.elim

theorem Process.Checks.moved (checks : process.Checks owner count me)
    (owned : process.Owned owner count stage me) (sound : stage.Sound)
    (isStage : me = owner → process.stage owner count = stage)
    (status : process.Status owner me) (tells : process.Tells owner)
    (takes : process.TakesCount owner me) (inRange : process.InRange thread)
    (rechecks : Rechecks owner count me process thread)
    (moved : Next me count process thread next sent) : next.Checks owner count me := by
  have fits := owned.pcs thread
  cases moved with
  | plain isPlain =>
      refine checks.keep rfl (fun gathered => gathered.of_goto rfl ?_ rfl rfl) le_rfl id
        fun isOwner gathered holds => ?_
      · exact ((Phase.threads_eq _).mp (isPlain.threads 0)).1
      · have isStage := isStage isOwner
        subst isOwner isStage
        have known := (tells.sent gathered.sent).1
        have nCounts := takes.nCounts_le gathered.sent gathered.released
        have collected := gathered.collected
        exact isPlain.checks rfl fits known (tells.sent gathered.sent).2 (sound.ready known)
          (by omega) gathered.all status holds
  | itemCount isPc =>
      intro isOwner gathered
      exact .inl (exists_pc (show _ = (process.goto thread
        (.itemStatus (process.tls.nreduced + 1))).pcs from rfl) gathered.all)
  | @gatherAdd source cnt reply isPc =>
      exact fun _ _ => .inl (exists_pc (show _ = (process.goto thread
        (.gatherRelease source reply)).pcs from rfl) trivial)
  | @gatherRelease source reply isPc =>
      intro isOwner gathered
      subst isOwner
      have sent : process.log.counts.sent = true := by
        rw [← Log.gather_sent process.log source reply]
        exact gathered.sent
      have released : process.sum (countPhase : Phase n Thread α).broadcasts = 0 := by
        have released := gathered.released
        rw [Process.sum_goto (by rfl), isPc] at released
        split at released
        all_goals exact (sub_zero _).symm.trans ((add_zero _).symm.trans released)
      have few : (bcast me me).length ≤ process.log.counts.collected.card + 1 := by
        refine gathered.collected.symm.trans_le ?_
        cases reply with
        | true => exact Finset.card_insert_le source process.log.counts.collected
        | false => exact Nat.le_succ _
      have nCounts := takes.nCounts_le sent released
      have isLast : process.tls.addCounts (-1) ≤ 0 := by
        rw [inRange.addCounts isPc rfl]
        omega
      refine .inl (exists_pc (by rfl) ?_)
      rw [if_pos isLast]
      trivial
  | exchange isPc =>
      rw [isPc] at fits
      exact fun isOwner => absurd isOwner fits.1
  | learn learns =>
      refine checks.keep rfl (fun gathered => gathered.of_goto rfl ?_ rfl rfl) le_rfl id
        fun _ _ holds => ?_
      · cases isPc : process.pcs thread <;> rw [isPc] at learns <;> cases learns <;> rfl
      · cases isPc : process.pcs thread <;> rw [isPc] at learns holds <;> cases learns
        · exact .inl trivial
        · exact holds.elim
  | hear isPc notMe =>
      rw [isPc] at fits
      exact fun isOwner => absurd (fits.1.trans isOwner.symm) notMe
  | fire isPc available => exact fun _ _ => .inr (.inl (Nat.succ_pos _))
  | guard guards =>
      refine checks.keep rfl (fun gathered => gathered.of_goto rfl ?_ rfl rfl) le_rfl id
        fun _ _ holds => ?_
      · cases isPc : process.pcs thread <;> rw [isPc] at guards <;> cases guards <;> rfl
      · cases isPc : process.pcs thread <;> rw [isPc] at guards holds <;> cases guards
        all_goals exact holds.elim
  | store stores =>
      refine checks.keep rfl (fun gathered => gathered.of_goto rfl ?_ rfl rfl) le_rfl id
        fun _ _ holds => ?_
      · cases isPc : process.pcs thread <;> rw [isPc] at stores <;> cases stores <;> rfl
      · cases isPc : process.pcs thread <;> rw [isPc] at stores holds <;> cases stores
        all_goals exact holds.elim
  | raise raises =>
      refine checks.keep rfl (fun gathered => gathered.of_goto rfl ?_ rfl rfl) le_rfl id
        fun _ _ holds => ?_
      · cases isPc : process.pcs thread <;> rw [isPc] at raises <;> cases raises <;> rfl
      · cases isPc : process.pcs thread <;> rw [isPc] at raises holds <;> cases raises
        all_goals exact holds.elim
  | valueReduced isPc =>
      rw [isPc] at fits
      intro isOwner _
      have isStage := isStage isOwner
      subst isStage
      exact .inr (.inl fits.2.1)
  | @putFewer fromCount loaded isPc fewer =>
      intro isOwner gathered
      cases fromCount with
      | true => exact absurd gathered.released (broadcasting_ne_zero (by rfl) rfl)
      | false =>
          refine checks.keep rfl (fun gathered => gathered.of_goto rfl ?_ rfl rfl) le_rfl id
            (fun _ _ holds => ?_) isOwner gathered
          · rw [isPc]
            rfl
          · rw [isPc] at holds
            exact holds.elim
  | @putUnlock fromCount isPc =>
      intro isOwner gathered
      cases fromCount with
      | true => exact absurd gathered.released (broadcasting_ne_zero (by rfl) rfl)
      | false =>
          refine checks.keep (by rfl) (fun gathered => gathered.of_goto (by rfl) ?_ rfl rfl)
            le_rfl id (fun _ _ holds => ?_) isOwner gathered
          · rw [isPc]
            rfl
          · rw [isPc] at holds
            exact holds.elim
  | putOut isPc => exact fun _ _ => .inr (.inr (List.append_ne_nil_of_right_ne_nil _ nofun))
  | await awaits =>
      cases isPc : process.pcs thread <;> rw [isPc] at awaits fits <;> cases awaits
      case flagCounts.flag =>
          exact fun _ _ => .inl (exists_pc (show _ = (process.goto thread (.doneOwner me)).pcs
            from rfl) trivial)
      case bcastCounts.begin =>
          exact fun _ gathered => absurd gathered.released (broadcasting_ne_zero (by rfl) rfl)
      case bcastAdd.add =>
          exact fun _ gathered => absurd gathered.released (broadcasting_ne_zero (by rfl) rfl)
      case bcastRelease.leaf =>
          rename_i _ notMe _
          exact fun isOwner => absurd (fits.1.trans isOwner.symm) notMe
      case bcastRelease.release =>
          intro isOwner gathered
          subst isOwner
          rcases rechecks (by rw [isPc]; rfl) rfl with missing | fewer | fired | checks
          · exact absurd gathered.collected missing
          · exact absurd gathered.all fewer
          · exact .inr (.inl fired)
          · refine exists_pcs (by rfl) (fun holds => ?_) checks
            rw [isPc] at holds
            exact holds.elim
  | bcastSend isPc =>
      exact fun _ gathered => absurd gathered.released (broadcasting_ne_zero (by rfl) rfl)
  | subValue isPc =>
      refine checks.keep rfl (fun gathered => gathered.of_goto rfl ?_ rfl rfl) le_rfl id
        fun _ _ holds => ?_
      · rw [isPc]
        split <;> rfl
      · rw [isPc] at holds
        exact holds.elim
  | _ isPc =>
      refine checks.keep rfl (fun gathered => gathered.of_goto rfl ?_ rfl rfl) le_rfl id
        fun _ _ holds => ?_
      · rw [isPc]
        rfl
      · rw [isPc] at holds
        exact holds.elim

def Process.Reports (owner me : Fin n) (process : Process n Thread α) : Prop :=
  me ≠ owner → process.log.counts.replied = true → 0 < process.tls.nreduced →
    ∃ thread, (process.pcs thread).Reports

def Process.Answers (owner me : Fin n) (process : Process n Thread α) : Prop :=
  me = owner → process.log.put = true →
    (∃ thread, (process.pcs thread).Answers) ∨ process.log.counts.heard = true ∨
      process.log.out ≠ []

omit [Mul α] [One α] [Inhabited α] [Fintype Thread] in
theorem Process.Reports.keep (reports : process.Reports owner me)
    (pcs : next.pcs = (process.goto thread pc).pcs)
    (replied : next.log.counts.replied = process.log.counts.replied)
    (nreduced : next.tls.nreduced = process.tls.nreduced)
    (goes : me ≠ owner → process.log.counts.replied = true → (process.pcs thread).Reports →
      pc.Reports) : next.Reports owner me := by
  intro notOwner isReplied positive
  rw [replied] at isReplied
  rw [nreduced] at positive
  exact (exists_pcs pcs (fun holds => .inl (goes notOwner isReplied holds))
    (reports notOwner isReplied positive)).resolve_right id

omit [DecidableEq Thread] [Mul α] [One α] [Inhabited α] [Fintype Thread] in
theorem Plain.reports {pc' : Pc n α} (isPlain : Plain me process pc pc') (notOwner : me ≠ owner)
    (known : process.tls.owner = some owner) (later : process.tls.status ≠ .localOnly)
    (reports : pc.Reports) : pc'.Reports := by
  have notMe : process.tls.owner ≠ some me := by
    rw [known]
    exact fun same => notOwner (Option.some.inj same).symm
  cases isPlain with
  | itemLocal isLocal => exact absurd isLocal later
  | itemOwn isOwner => exact absurd isOwner notMe
  | itemNowhere nowhere =>
      rcases nowhere with unknown | isOwner
      · rw [known] at unknown
        cases unknown
      · exact absurd isOwner notMe
  | itemStatus | itemAlien | itemSend => exact trivial
  | _ => exact reports.elim

omit [Fintype Thread] in
theorem Process.Reports.moved (reports : process.Reports owner me)
    (owned : process.Owned owner count stage me) (tells : process.Tells owner)
    (sentOf : process.log.counts.replied = true → process.log.counts.sent = true)
    (taking : ∀ source cnt, process.pcs thread = .gatherAdd source cnt true →
      process.log.counts.replied = false)
    (moved : Next me count process thread next sent) : next.Reports owner me := by
  have fits := owned.pcs thread
  cases moved with
  | plain isPlain =>
      refine reports.keep rfl rfl rfl fun notOwner replied holds => ?_
      obtain ⟨known, later⟩ := tells.sent (sentOf replied)
      exact isPlain.reports notOwner known later holds
  | itemCount isPc =>
      exact fun _ _ _ => exists_pc (show _ = (process.goto thread
        (.itemStatus (process.tls.nreduced + 1))).pcs from rfl) trivial
  | exchange isPc => exact fun _ _ positive => absurd positive (Int.lt_irrefl 0)
  | @gatherAdd source cnt reply isPc =>
      rw [isPc] at fits
      intro notOwner replied
      cases reply with
      | true =>
          have unreplied := taking source cnt isPc
          exact absurd (unreplied.symm.trans replied) Bool.false_ne_true
      | false => exact absurd fits.2 notOwner
  | valueReduced isPc =>
      rw [isPc] at fits
      exact fun notOwner => absurd fits.1 notOwner
  | learn learns =>
      refine reports.keep rfl rfl rfl fun _ _ holds => ?_
      cases isPc : process.pcs thread <;> rw [isPc] at learns holds <;> cases learns
      all_goals exact holds.elim
  | guard guards =>
      refine reports.keep rfl rfl rfl fun _ _ holds => ?_
      cases isPc : process.pcs thread <;> rw [isPc] at guards holds <;> cases guards
      all_goals exact holds.elim
  | store stores =>
      refine reports.keep rfl rfl rfl fun _ _ holds => ?_
      cases isPc : process.pcs thread <;> rw [isPc] at stores holds <;> cases stores
      all_goals exact holds.elim
  | raise raises =>
      refine reports.keep rfl rfl rfl fun _ _ holds => ?_
      cases isPc : process.pcs thread <;> rw [isPc] at raises holds <;> cases raises
      all_goals exact holds.elim
  | await awaits =>
      refine reports.keep rfl rfl rfl fun _ _ holds => ?_
      cases isPc : process.pcs thread <;> rw [isPc] at awaits holds <;> cases awaits
      all_goals exact holds.elim
  | putFewer isPc | putUnlock isPc =>
      refine reports.keep (notPut_pcs ..) (notPut_replied ..) (by simp only [notPut_tls])
        fun _ _ holds => ?_
      rw [isPc] at holds
      exact holds.elim
  | gatherRelease isPc =>
      refine reports.keep rfl (Log.gather_replied ..) rfl fun _ _ holds => ?_
      rw [isPc] at holds
      exact holds.elim
  | _ isPc =>
      refine reports.keep rfl rfl rfl fun _ _ holds => ?_
      rw [isPc] at holds
      exact holds.elim

omit [Mul α] [One α] [Inhabited α] [Fintype Thread] in
theorem Process.Answers.keep (answers : process.Answers owner me)
    (pcs : next.pcs = (process.goto thread pc).pcs)
    (put : next.log.put = process.log.put)
    (heard : next.log.counts.heard = process.log.counts.heard)
    (out : next.log.out = process.log.out)
    (goes : (process.pcs thread).Answers → pc.Answers) : next.Answers owner me := by
  intro isOwner isPut
  rw [put] at isPut
  rw [heard, out]
  rcases answers isOwner isPut with before | before
  · exact (exists_pcs pcs (fun holds => .inl (goes holds)) before)
  · exact .inr before

omit [DecidableEq Thread] [Mul α] [One α] [Inhabited α] [Fintype Thread] in
theorem Plain.answers {pc' : Pc n α} (isPlain : Plain me process pc pc') (answers : pc.Answers) :
    pc'.Answers := by
  cases isPlain with
  | @putReduced fromCount | @putAll fromCount | @putDone fromCount _ =>
      cases fromCount with
      | true => trivial
      | false => exact answers.elim
  | putFirst => trivial
  | _ => exact answers.elim

omit [Fintype Thread] in
theorem Process.Answers.moved (answers : process.Answers owner me)
    (moved : Next me count process thread next sent) : next.Answers owner me := by
  cases moved with
  | plain isPlain => exact answers.keep rfl rfl rfl rfl isPlain.answers
  | learn learns =>
      refine answers.keep rfl rfl rfl rfl fun holds => ?_
      cases isPc : process.pcs thread <;> rw [isPc] at learns holds <;> cases learns
      all_goals exact holds.elim
  | guard guards =>
      refine answers.keep rfl rfl rfl rfl fun holds => ?_
      cases isPc : process.pcs thread <;> rw [isPc] at guards holds <;> cases guards
      all_goals exact holds.elim
  | store stores =>
      refine answers.keep rfl rfl rfl rfl fun holds => ?_
      cases isPc : process.pcs thread <;> rw [isPc] at stores holds <;> cases stores
      · trivial
      · exact holds.elim
  | raise raises =>
      refine answers.keep rfl rfl rfl rfl fun holds => ?_
      cases isPc : process.pcs thread <;> rw [isPc] at raises holds <;> cases raises
      all_goals exact holds.elim
  | await awaits =>
      refine answers.keep rfl rfl rfl rfl fun holds => ?_
      cases isPc : process.pcs thread <;> rw [isPc] at awaits holds <;> cases awaits
      all_goals exact holds.elim
  | @putFewer fromCount loaded isPc _ =>
      cases fromCount with
      | true => exact fun _ _ => .inr (.inl rfl)
      | false =>
          refine answers.keep (by rfl) rfl rfl rfl fun holds => ?_
          rw [isPc] at holds
          exact holds.elim
  | @putUnlock fromCount isPc =>
      cases fromCount with
      | true => exact fun _ _ => .inr (.inl rfl)
      | false =>
          refine answers.keep (by rfl) rfl rfl rfl fun holds => ?_
          rw [isPc] at holds
          exact holds.elim
  | @putLock fromCount isPc =>
      refine answers.keep rfl rfl rfl rfl fun holds => ?_
      rw [isPc] at holds
      cases fromCount with
      | true => trivial
      | false => exact holds.elim
  | putOut isPc => exact fun _ _ => .inr (.inr (List.append_ne_nil_of_right_ne_nil _ nofun))
  | gatherRelease isPc =>
      refine answers.keep rfl (Log.gather_put ..) (Log.gather_heard ..) (Log.gather_out ..)
        fun holds => ?_
      rw [isPc] at holds
      exact holds.elim
  | _ isPc =>
      refine answers.keep rfl rfl rfl rfl fun holds => ?_
      rw [isPc] at holds
      exact holds.elim

/-- What keeps a reduction going. -/
structure Process.Completing (owner : Fin n) (count : Int) (me : Fin n)
    (process : Process n Thread α) : Prop where
  status : process.Status owner me
  finishes : process.Finishes owner count me
  checks : process.Checks owner count me
  reports : process.Reports owner me
  answers : process.Answers owner me

omit [Mul α] [One α] [Inhabited α] in
theorem Process.Completing.begin (completing : process.Completing owner count me)
    (isPc : process.pcs thread = .idle) (pcs : next.pcs = (process.goto thread pc).pcs)
    (tls : next.tls = process.tls) (fired : next.log.fired = process.log.fired)
    (out : next.log.out = process.log.out)
    (replied : next.log.counts.replied = process.log.counts.replied)
    (counts : me = owner → next.log.counts = process.log.counts)
    (broadcasts : me = owner → (countPhase : Phase n Thread α).broadcasts pc = 0)
    (put : next.log.put = true → process.log.put = true ∨ pc.Answers) (notPut : pc ≠ .putDone) :
    next.Completing owner count me := by
  refine ⟨completing.status.keep pcs (by rw [tls]) fired (by rw [out]; exact id)
      (fun isPut => absurd isPut notPut) ?_,
    completing.finishes.keep pcs fired (by rw [tls]) (by rw [out]; exact id) ?_, ?_,
    completing.reports.keep pcs replied (by rw [tls]) ?_, ?_⟩
  · rw [isPc]
    exact False.elim
  · rw [isPc]
    exact fun _ _ _ => False.elim
  · intro isOwner
    refine completing.checks.keep pcs (fun gathered => gathered.of_goto pcs ?_ (counts isOwner)
      (by rw [tls])) fired.ge (by rw [out]; exact id) ?_ isOwner
    · rw [isPc, broadcasts isOwner]
      rfl
    · rw [isPc]
      exact fun _ _ => False.elim
  · rw [isPc]
    exact fun _ _ => False.elim
  · intro isOwner isPut
    rcases put isPut with before | answers
    · rw [counts isOwner, out]
      rcases completing.answers isOwner before with isAnswer | rest
      · refine (exists_pcs pcs ?_ isAnswer)
        rw [isPc]
        exact False.elim
      · exact .inr rest
    · exact .inl (exists_pc pcs answers)

end Steps

section Runs

variable [Fintype Thread] [DecidableEq Thread] {s next : State n Thread α}

/-- Besides, the owner does not release the broadcast of the count after all counts have come in. -/
def Timely (owner : Fin n) (count : Int) (s : State n Thread α) (action : Action n Thread α) :
    Prop :=
  PutsInRange owner count s action ∧
    match action with
    | .run pid thread => Rechecks owner count pid (s.proc pid) thread
    | _ => True

instance [DecidableEq α] (owner : Fin n) (count : Int) (s : State n Thread α) :
    DecidablePred (Timely owner count s)
  | .putItem _ _ _ => inferInstanceAs (Decidable ((_ ∧ True) ∧ True))
  | .putCount _ => inferInstanceAs (Decidable ((_ ∧ True) ∧ True))
  | .receive _ _ => inferInstanceAs (Decidable ((_ ∧ True) ∧ True))
  | .run pid thread => inferInstanceAs (Decidable ((_ ∧ (s.proc pid).InRange thread) ∧
      Rechecks owner count pid (s.proc pid) thread))

variable [Mul α] [One α] [Inhabited α]

theorem completing_of_reached (natural : 0 ≤ count)
    (reached : Reached (system owner count) (Timely owner count) s) (pid : Fin n) :
    (s.proc pid).Completing owner count pid := by
  revert pid
  refine reached.invariant (fun state => ∀ pid, (state.proc pid).Completing owner count pid) ?_ ?_
  · rintro state rfl pid
    refine ⟨⟨fun _ => nofun, fun _ => nofun, fun _ => nofun, fun _ => nofun⟩,
      fun _ fired => absurd fired (Nat.lt_irrefl 0), fun _ gathered => ?_, fun _ => nofun,
      fun _ => nofun⟩
    exact absurd gathered.sent Bool.false_ne_true
  · intro state action next before completing allowed stepped
    have before := before.weaken fun _ _ timely => timely.1
    have owned := owned_of_reached (puts_of_inRange before)
    have counting := counting_of_reached natural (puts_of_inRange before)
    have counts := countWave_of_reached natural before
    have values := valueWave_of_reached (puts_of_inRange before)
    cases taken_of_step stepped with
    | @putItem pid thread val isPc =>
        refine setProc_forall completing ((completing pid).begin isPc (by rfl) rfl rfl rfl rfl
          (fun _ => rfl) (fun _ => by rfl) .inl ?_)
        nofun
    | @putCount thread isPc =>
        have notFlag : count ≠ -1 := by omega
        simp only [if_neg notFlag]
        refine setProc_forall completing ((completing owner).begin isPc (by rfl) rfl rfl rfl rfl
          (fun _ => rfl) (fun _ => by rfl) (fun _ => .inr (show Pc.countN.Answers from trivial)) ?_)
        nofun
    | @receive source target message rest isPc head =>
        have arrived : message ∈ state.chan source target := by
          rw [head]
          exact List.mem_cons_self
        have fits := owned.everywhere.messages source target message arrived
        refine setProc_forall completing ((completing target).begin isPc (by rfl) rfl
          (Log.hear_fired ..) (Log.hear_out ..) ?_ (fun isOwner => ?_) (fun isOwner => ?_)
          (fun isPut => .inl ?_) ?_)
        · cases message <;> rfl
        · cases message with
          | bcastCount => exact absurd isOwner fits.2.2.1
          | _ => rfl
        · cases message with
          | bcastCount => exact absurd isOwner fits.2.2.1
          | _ => rfl
        · rwa [Log.hear_put] at isPut
        · cases message <;> nofun
    | @run pid thread process sent moved =>
        have ofPid := owned.everywhere.processes pid
        have fits := ofPid.pcs thread
        have once := once_of_reached (puts_of_inRange before) pid
        have one := completing pid
        have roles := roles_of_reached (puts_of_inRange before)
        have takes' := (values.run roles owned once moved).takes pid
        rw [show State.proc _ pid = process from Function.update_self ..] at takes'
        refine setProc_forall completing ⟨one.status.moved ofPid moved,
          one.finishes.moved ofPid owned.sound (Owned.isStage state pid) one.status once
            (values.takes pid) takes' (values.fires pid) (values.gathers.collected_le pid)
            (fun isOwner fired => ?_) moved,
          one.checks.moved ofPid owned.sound (Owned.isStage state pid) one.status
            (counts.tells pid) (counts.takes pid) allowed.1.2 allowed.2 moved,
          one.reports.moved ofPid (counts.tells pid) (fun replied =>
            (counts.gathers.replied pid replied).2.1) (fun source cnt isPc => ?_) moved,
          one.answers.moved moved⟩
        · subst isOwner
          exact (counting.all (.inl fired)).1
        · rw [isPc] at fits
          have adding : 0 < (countPhase : Phase n Thread α).up source pid
              ((state.proc pid).pcs thread) := by
            rw [isPc]
            simp [countPhase]
          obtain ⟨-, -, room⟩ := counts.gathers.of_taking fits.2 adding
          refine Bool.eq_false_iff.mpr fun replied => ?_
          exact absurd (counts.gathers.collected_of_replied replied).2 room.ne

theorem gathered_of_idle (natural : 0 ≤ count)
    (reached : Reached (system owner count) (Timely owner count) s) (idle : s.Idle)
    (empty : s.chan.Empty) (all : (s.items : Int) = count)
    (heard : (s.proc owner).log.counts.heard = true) : (s.proc owner).Gathered owner count := by
  have before := reached.weaken fun _ _ timely => timely.1
  have counting := counting_of_reached natural (puts_of_inRange before)
  have wave := countWave_of_reached natural before
  have complete := wave.gathers.complete wave.takes (fun _ notOwner => notOwner) idle empty
    (fun _ => rfl) rfl (fun _ _ => rfl) (fun _ _ => rfl) heard
  have elsewhere (pid : Fin n) (notOwner : pid ≠ owner) : (s.proc pid).tls.nreduced = 0 := by
    have nonneg := (counting.everywhere.processes pid).nonneg
    by_contra notZero
    obtain ⟨thread, reports⟩ := (completing_of_reached natural reached pid).reports notOwner
      ((complete pid).2.1 notOwner) (by omega)
    rw [idle] at reports
    exact reports.elim
  have counted : s.counted = s.items := by
    refine Finset.sum_congr rfl fun pid _ => ?_
    have items := (counting.everywhere.processes pid).items
    have nothing : ∑ thread, ((s.proc pid).pcs thread).uncounted = 0 :=
      Finset.sum_eq_zero fun thread _ => by rw [idle]; rfl
    omega
  have inHand : ∑ pid, ∑ thread, ((s.proc pid).pcs thread).inHand = 0 :=
    Finset.sum_eq_zero fun pid _ => Finset.sum_eq_zero fun thread _ => by rw [idle]; rfl
  have conserved := counting.conserved
  rw [inHand, weight_of_empty empty, Finset.sum_eq_single owner (fun pid _ => elsewhere pid)
    (fun absent => absurd (Finset.mem_univ owner) absent), counted] at conserved
  refine ⟨(complete owner).1, ?_, by omega, (complete owner).2.2⟩
  exact Finset.sum_eq_zero fun thread _ => by rw [idle]; rfl

theorem nValues_of_idle (reached : Reached (system owner count) (Puts owner count) s)
    (idle : s.Idle) (empty : s.chan.Empty) (fired : 0 < (s.proc owner).log.fired) :
    (s.proc owner).tls.nValues = 0 := by
  have wave := valueWave_of_reached reached
  have heard : (s.proc owner).log.values.heard = true := by
    rw [← Bool.toNat_eq_one, ← wave.fires owner rfl]
    have once := (once_of_reached reached owner).fired
    omega
  have complete := wave.gathers.complete wave.takes (fun _ _ => trivial) idle empty
    (fun _ => rfl) rfl (fun _ _ => rfl) (fun _ _ => rfl) heard owner
  have none {measure : Pc n α → Int} (nothing : measure .idle = 0) :
      (s.proc owner).sum measure = 0 :=
    Finset.sum_eq_zero fun thread _ => (congrArg measure (idle owner thread)).trans nothing
  have isOpen : (s.proc owner).sum (valuePhase : Phase n Thread α).closed = 0 := none rfl
  have bias : (s.proc owner).sum ((valuePhase : Phase n Thread α).bias (bcast owner owner).length) =
      0 := none rfl
  have atMost : (s.proc owner).tls.nValues +
      ((s.proc owner).log.values.collected.card : Int) ≤ _ := (wave.takes owner).atMost heard isOpen
  have atLeast : _ ≤ (s.proc owner).tls.nValues +
      ((s.proc owner).log.values.collected.card : Int) :=
    (wave.takes owner).atLeast trivial heard isOpen
  have card : (s.proc owner).log.values.collected.card = (bcast owner owner).length :=
    complete.2.2
  omega

/-- When the count and all items have been put and nothing is left to be done, the owner has put
one value. -/
theorem reduction_completes (natural : 0 ≤ count)
    (reached : Reached (system owner count) (Timely owner count) s) (idle : s.Idle)
    (empty : s.chan.Empty) (isPut : (s.proc owner).log.put = true)
    (all : (s.items : Int) = count) :
    ∃ value, (s.proc owner).log.out = [value] ∧ ∀ pid, pid ≠ owner → (s.proc pid).log.out = [] := by
  have puts := puts_of_inRange (reached.weaken fun _ _ timely => timely.1)
  have completing := completing_of_reached natural reached owner
  have nowhere {property : Pc n α → Prop} (nothing : ¬ property .idle) :
      ¬ ∃ thread, property ((s.proc owner).pcs thread) := by
    rintro ⟨thread, holds⟩
    exact nothing (idle owner thread ▸ holds)
  have isOut : (s.proc owner).log.out ≠ [] := by
    rcases (completing.answers rfl isPut).resolve_left (nowhere False.elim) with heard | isOut
    · have gathered := gathered_of_idle natural reached idle empty all heard
      rcases (completing.checks rfl gathered).resolve_left (nowhere False.elim) with fired | isOut
      · have isZero := nValues_of_idle puts idle empty fired
        exact (completing.finishes rfl fired isZero).resolve_left (nowhere False.elim)
      · exact isOut
    · exact isOut
  have one := ((once_of_reached puts owner).put.resolve_left isOut).1
  obtain ⟨value, isValue⟩ := List.length_eq_one_iff.mp one
  exact ⟨value, isValue, fun pid notOwner => ((once_of_reached puts pid).other notOwner).2⟩

end Runs

theorem timely_lateItem :
    ((system 0 2).run (Timely 0 2) (start 2 Unit ℤ) lateItem).any (fun s =>
      decide (s.Idle ∧ (∀ source target, (s.chan source target).isEmpty) ∧
        (s.proc 0).log.put = true ∧ (s.items : Int) = 2)) = true := by
  decide +kernel

theorem reduction_completes_lateItem :
    ∃ s : State 2 Unit ℤ,
      (system 0 2).run (Timely 0 2) (start 2 Unit ℤ) lateItem = some s ∧
      ∃ value, (s.proc 0).log.out = [value] ∧ ∀ pid, pid ≠ 0 → (s.proc pid).log.out = [] := by
  obtain ⟨s, isRun, facts⟩ := (Option.any_eq_true ..).mp timely_lateItem
  obtain ⟨idle, empty, isPut, all⟩ := of_decide_eq_true facts
  refine ⟨s, isRun, reduction_completes (by decide) (Reached.run (.initial rfl) _ isRun) idle
    (fun source target => List.isEmpty_iff.mp (empty source target)) isPut all⟩

/-- The GATHERCOUNT of process 1 comes in before process 0 releases the broadcast of the count. -/
def gatherTooEarly : List (Action 2 Unit ℤ) :=
  [[.putItem 1 () 5], List.replicate 3 (.run 1 (some ())), [.putCount ()],
    List.replicate 9 (.run 0 (some ())), [.receive 0 1], List.replicate 9 (.run 1 none),
    [.receive 1 0], List.replicate 2 (.run 0 none), [.run 0 (some ())]].flatten

theorem run_gatherTooEarly :
    ((system 0 1).run (Puts 0 1) (start 2 Unit ℤ) gatherTooEarly).any (fun s =>
      decide (s.Idle ∧ (∀ source target, (s.chan source target).isEmpty) ∧
        (s.proc 0).log.put = true ∧ s.items = 1 ∧
        (s.proc 0).tls.nreduced = 1 ∧ (s.proc 0).log.out = [])) = true := by
  decide +kernel

/-- Without that condition all counts can have come in and no value is put. -/
theorem incomplete_gatherTooEarly :
    ∃ s : State 2 Unit ℤ,
      (system 0 1).run (Puts 0 1) (start 2 Unit ℤ) gatherTooEarly = some s ∧
      s.Idle ∧ s.chan.Empty ∧ (s.proc 0).log.put = true ∧ s.items = 1 ∧
      (s.proc 0).tls.nreduced = 1 ∧ (s.proc 0).log.out = [] := by
  obtain ⟨s, isRun, facts⟩ := (Option.any_eq_true ..).mp run_gatherTooEarly
  obtain ⟨idle, empty, rest⟩ := of_decide_eq_true facts
  exact ⟨s, isRun, idle, fun source target => List.isEmpty_iff.mp (empty source target), rest⟩

end CnC.Reduce
