import CnC.Reduce.CountPhase

/-!
# The gathering of the values

The owner broadcasts DONE, and the processes reply with the products of the items and the values
which they have.
-/

namespace CnC.Reduce

open Convergecast Network Transition

variable {n : Nat} {Thread α : Type} {owner me : Fin n} {count : Int}

def valuePhase : Phase n Thread α where
  part log := log.values
  counter tls := tls.nValues
  down q pid
    | .doneOwner _ | .doneSwitch _ => if pid = q then 1 else 0
    | _ => 0
  downMsg q _ target
    | .done _ => if target = q then 1 else 0
    | _ => 0
  up q pid
    | .valueSend _ => if pid = q then 1 else 0
    | .addValue _ (some source) | .subValue (some source) => if source = q then 1 else 0
    | _ => 0
  upMsg q source _
    | .value _ => if source = q then 1 else 0
    | _ => 0
  broadcasts
    | .doneValues _ | .doneBcast _ | .doneAdd _ | .doneFinish | .doneRelease | .subValue none => 1
    | _ => 0
  unsent
    | .doneValues _ | .doneBcast _ => 1
    | _ => 0
  closed
    | .doneValues _ => 1
    | _ => 0
  bias k
    | .doneBcast _ | .doneAdd _ => 1000 - k
    | .doneFinish | .doneRelease => 1000
    | .subValue none => 1
    | _ => 0
  replies
    | .valueOwner | .valueCombine => 1
    | _ => 0
  closed_nonneg pc := by cases pc <;> simp
  closed_le pc := by cases pc <;> simp
  unsent_le pc := by split <;> split <;> simp
  replies_nonneg pc := by cases pc <;> simp
  bias_eq_zero k pc := by
    cases pc with
    | subValue source => cases source <;> simp
    | _ => simp

structure Process.Learned (owner : Fin n) (process : Process n Thread α) : Prop where
  pcs : ∀ thread o, process.pcs thread = .doneSwitch o → process.tls.owner = some owner
  heard : process.log.values.heard = true → process.tls.owner = some owner

/-- The owner broadcasts DONE when it switches to BCAST_DONE. -/
def Process.Fires (owner me : Fin n) (process : Process n Thread α) : Prop :=
  me = owner → process.log.fired = process.log.values.heard.toNat

section Steps

variable {process next : Process n Thread α} {pc pc' : Pc n α}

theorem length_bcast_le (owner me : Fin n) : (bcast owner me).length ≤ 2 := by
  rw [bcast_eq]
  split
  · split <;> simp
  · simp

theorem Plain.valueThreads (moved : Plain me process pc pc') (k : Nat) :
    (valuePhase : Phase n Thread α).threads k pc' =
      (valuePhase : Phase n Thread α).threads k pc := by
  cases moved <;> rfl

theorem Plain.valueReplies (moved : Plain me process pc pc')
    (unowned : process.tls.owner ≠ some me) :
    (valuePhase : Phase n Thread α).replies pc' = (valuePhase : Phase n Thread α).replies pc := by
  cases moved with
  | valueOwn isOwner => exact absurd isOwner unowned
  | _ => rfl

theorem valueBroadcasts_ofItem (pc : Pc n α) (item : pc.ofItem = true) :
    (valuePhase : Phase n Thread α).broadcasts pc = 0 := by
  cases pc <;> first | rfl | cases item

theorem Plain.valueUp (moved : Plain me process pc pc') (q : Fin n) :
    (valuePhase : Phase n Thread α).up q me pc' = (valuePhase : Phase n Thread α).up q me pc := by
  cases moved <;> rfl

theorem Plain.valueDown {stage : Stage} (moved : Plain me process pc pc')
    (fits : pc.Fits owner count stage me) {q : Fin n} (notRoot : q ≠ owner) :
    (valuePhase : Phase n Thread α).down q me pc' =
      (valuePhase : Phase n Thread α).down q me pc := by
  have notMe (isOwner : me = owner) : (if me = q then (1 : Nat) else 0) = 0 :=
    if_neg fun same => notRoot (same.symm.trans isOwner)
  cases moved with
  | itemDone | gatherAll => exact notMe fits.1
  | doneAlready => exact (notMe fits.1).symm
  | _ => rfl

variable [DecidableEq Thread] {thread : Option Thread} [Mul α] [One α] [Inhabited α]
  {sent : List (Fin n × Msg n α)}

omit [Mul α] [One α] [Inhabited α] in
theorem Process.Learned.change (learned : process.Learned owner)
    (pcs : next.pcs = (process.goto thread pc).pcs)
    (keeps : process.tls.owner = some owner → next.tls.owner = some owner)
    (switches : ∀ o, pc = .doneSwitch o → next.tls.owner = some owner)
    (heard : next.log.values.heard = true → process.log.values.heard = true ∨
      ∃ o, process.pcs thread = .doneSwitch o) : next.Learned owner := by
  refine ⟨fun other o isPc => ?_, fun isHeard => ?_⟩
  · rw [pcs, pcs_goto] at isPc
    split at isPc
    · exact switches o isPc
    · exact keeps (learned.pcs other o isPc)
  · rcases heard isHeard with before | ⟨o, isPc⟩
    · exact keeps (learned.heard before)
    · exact keeps (learned.pcs thread o isPc)

theorem Process.Learned.moved {stage : Stage} (learned : process.Learned owner)
    (owned : process.Owned owner count stage me)
    (moved : Next me count process thread next sent) : next.Learned owner := by
  have keeps := (moved.keeps owned).1
  have fits := owned.pcs thread
  cases moved with
  | plain isPlain =>
      refine learned.change rfl keeps ?_ .inl
      rintro o rfl
      cases isPc : process.pcs thread <;> rw [isPc] at isPlain <;> cases isPlain
  | learn learns =>
      refine learned.change rfl keeps (fun o isSwitch => ?_) .inl
      cases isPc : process.pcs thread <;> rw [isPc] at learns fits <;> cases learns
      · exact congrArg some fits.1
      · cases isSwitch
  | guard guards =>
      refine learned.change rfl keeps ?_ .inl
      rintro o rfl
      cases isPc : process.pcs thread <;> rw [isPc] at guards <;> cases guards
  | store stores =>
      refine learned.change rfl keeps ?_ .inl
      rintro o rfl
      cases isPc : process.pcs thread <;> rw [isPc] at stores <;> cases stores
  | raise raises =>
      refine learned.change rfl keeps ?_ .inl
      rintro o rfl
      cases isPc : process.pcs thread <;> rw [isPc] at raises <;> cases raises
  | await awaits =>
      refine learned.change rfl keeps ?_ .inl
      rintro o rfl
      cases isPc : process.pcs thread <;> rw [isPc] at awaits <;> cases awaits
  | hear isPc | fire isPc =>
      exact learned.change rfl keeps (fun o impossible => nomatch impossible)
        fun _ => .inr ⟨_, isPc⟩
  | exchange isPc | subValue isPc =>
      refine learned.change rfl keeps (fun o isSwitch => ?_) .inl
      split at isSwitch <;> cases isSwitch
  | gatherRelease isPc =>
      refine learned.change rfl keeps (fun o isSwitch => ?_) ?_
      · split at isSwitch <;> cases isSwitch
      · rw [Log.gather_values]
        exact .inl
  | putFewer isPc | putUnlock isPc =>
      refine learned.change (notPut_pcs ..) keeps (fun o isSwitch => ?_) ?_
      · split at isSwitch <;> cases isSwitch
      · rw [notPut_values]
        exact .inl
  | _ isPc => exact learned.change rfl keeps (fun o impossible => nomatch impossible) .inl

theorem Process.Fires.moved {stage : Stage} (fires : process.Fires owner me)
    (owned : process.Owned owner count stage me) (once : process.Once owner me)
    (moved : Next me count process thread next sent) : next.Fires owner me := by
  intro isOwner
  have before := fires isOwner
  have fits := owned.pcs thread
  cases moved with
  | hear isPc notMe =>
      rw [isPc] at fits
      exact absurd (fits.1.trans isOwner.symm) notMe
  | fire isPc available =>
      have unfired : process.log.fired = 0 := by
        by_contra fired
        exact (once.spent (Nat.pos_of_ne_zero fired)).2 available
      change process.log.fired + 1 = true.toNat
      rw [unfired, Bool.toNat_true]
  | putFewer | putUnlock =>
      rw [notPut_fired, notPut_values]
      exact before
  | gatherRelease =>
      rw [Log.gather_fired, Log.gather_values]
      exact before
  | _ => exact before

variable [Fintype Thread]

abbrev Process.TakesValue (owner me : Fin n) (process : Process n Thread α) : Prop :=
  process.Takes valuePhase True (me ≠ owner) (bcast owner me).length

omit [DecidableEq Thread] [Mul α] [One α] [Inhabited α] in
theorem Process.TakesValue.isOpen (takes : process.TakesValue owner me)
    (isZero : process.tls.nValues = 0) :
    process.sum (valuePhase : Phase n Thread α).closed = 0 := by
  have nonneg := process.sum_nonneg (valuePhase : Phase n Thread α).closed_nonneg
  by_contra isClosed
  have unset : process.tls.nValues = -1 := takes.closed trivial (.inr (by omega))
  omega

omit [Mul α] [One α] [Inhabited α] in
theorem valueQuiet_of_handler (items : ∀ thread : Thread, (process.pcs thread).ofItem = true)
    (isPc : process.pcs thread = pc) (isHandler : pc.ofItem = false)
    (none : (valuePhase : Phase n Thread α).broadcasts pc = 0) :
    process.sum (valuePhase : Phase n Thread α).broadcasts = 0 := by
  subst isPc
  exact (Process.sum_of_handler (fun pc item => valueBroadcasts_ofItem pc item) items
    isHandler).trans none

theorem Next.takesValue {stage : Stage} (takes : process.TakesValue owner me)
    (owned : process.Owned owner count stage me) (once : process.Once owner me)
    (fires : process.Fires owner me) (items : process.OnlyItems owner me)
    (unheard : ∀ o, process.pcs thread = .doneSwitch o → me ≠ owner →
      process.log.values.heard = false)
    (unsent : process.log.values.sent = false → process.log.values.collected = ∅)
    (taking : ∀ source, process.pcs thread = .subValue (some source) →
      source ∉ process.log.values.collected ∧ process.log.values.sent = true ∧
        process.log.values.collected.card < (bcast owner me).length)
    (moved : Next me count process thread next sent) : next.TakesValue owner me := by
  have fits := owned.pcs thread
  have few := length_bcast_le owner me
  have unsent_of_unheard (unheard : process.log.values.heard = false) :
      process.log.values.collected = ∅ := by
    refine unsent (Bool.eq_false_iff.mpr fun isSent => ?_)
    exact Bool.false_ne_true (unheard.symm.trans (takes.closed_of_unsent isSent).1)
  cases moved with
  | plain isPlain =>
      refine takes.quiet rfl (isPlain.valueThreads _) (fun notOwner => ?_) rfl rfl
      exact isPlain.valueReplies fun isMe => notOwner (owned.known me isMe).1
  | exchange isPc =>
      refine takes.quiet rfl ?_ ?_ rfl rfl
      · rw [isPc]
        split <;> rfl
      · rw [isPc]
        split <;> exact fun _ => rfl
  | learn learns =>
      refine takes.quiet rfl ?_ ?_ rfl rfl
      all_goals cases isPc : process.pcs thread <;> rw [isPc] at learns <;> cases learns
      all_goals first | rfl | exact fun _ => rfl
  | hear isPc notMe =>
      rw [isPc] at fits
      obtain ⟨rfl, -, -⟩ := fits
      have notHeard := unheard _ isPc (Ne.symm notMe)
      exact takes.hear notHeard (fun _ => unsent_of_unheard notHeard) rfl
        ⟨by rw [isPc]; rfl, rfl⟩ ⟨by rw [isPc]; rfl, rfl⟩ ⟨by rw [isPc]; rfl, rfl⟩
        (by rw [isPc]; rfl) rfl rfl
  | fire isPc available =>
      rw [isPc] at fits
      have isOwner : me = owner := fits.1
      have notHeard : process.log.values.heard = false := by
        rw [← Bool.toNat_eq_zero, ← fires isOwner]
        by_contra fired
        exact (once.spent (Nat.pos_of_ne_zero fired)).2 available
      exact takes.hear notHeard (fun _ => unsent_of_unheard notHeard) rfl
        ⟨by rw [isPc]; rfl, rfl⟩ ⟨by rw [isPc]; rfl, rfl⟩ ⟨by rw [isPc]; rfl, rfl⟩
        (by rw [isPc]; rfl) rfl rfl
  | @guard pc nValues guards =>
      cases isPc : process.pcs thread <;> rw [isPc] at guards fits <;> cases guards
      case doneValues.guard =>
          refine takes.open (fun _ => trivial) (unsent (takes.of_unsent (by rw [isPc]; rfl)).2) rfl
            ⟨by rw [isPc]; rfl, rfl⟩ (by rw [isPc]; rfl) ⟨by rw [isPc]; rfl, rfl⟩
            (by rw [isPc]; rfl) rfl ?_ ?_
          · change (1000 : Int) = (bcast owner me).length + (1000 - (bcast owner me).length)
            omega
          · change (0 : Int) < (bcast owner me).length + (1000 - (bcast owner me).length)
            omega
      case doneAdd.add =>
          obtain ⟨-, rfl⟩ := fits
          refine takes.adjust (fun _ => trivial) rfl ⟨by rw [isPc]; rfl, rfl⟩ (by rw [isPc]; rfl)
            ⟨by rw [isPc]; rfl, rfl⟩ ?_ (by rw [isPc]; rfl) rfl rfl ?_
          · rw [isPc]
            change (1000 : Int) = 1000 - (bcast owner me).length + (bcast owner me).length
            omega
          · rw [isPc]
            change (0 : Int) < (bcast owner me).length + (1000 - (bcast owner me).length) ∧
              (0 : Int) < (bcast owner me).length + 1000
            omega
      case doneRelease.release =>
          refine takes.adjust (fun _ => trivial) rfl ⟨by rw [isPc]; rfl, rfl⟩ (by rw [isPc]; rfl)
            ⟨by rw [isPc]; rfl, rfl⟩ ?_ (by rw [isPc]; rfl) rfl rfl ?_
          · rw [isPc]
            change (1 : Int) = 1000 + -999
            omega
          · rw [isPc]
            change (0 : Int) < (bcast owner me).length + 1000 ∧
              (0 : Int) < (bcast owner me).length + 1
            omega
  | store stores =>
      refine takes.quiet rfl ?_ ?_ rfl rfl
      all_goals cases isPc : process.pcs thread <;> rw [isPc] at stores <;> cases stores
      all_goals first | rfl | exact fun _ => rfl
  | raise raises =>
      refine takes.quiet rfl ?_ ?_ rfl rfl
      all_goals cases isPc : process.pcs thread <;> rw [isPc] at raises <;> cases raises
      all_goals first | rfl | exact fun _ => rfl
  | await awaits =>
      refine takes.quiet rfl ?_ ?_ rfl rfl
      all_goals cases isPc : process.pcs thread <;> rw [isPc] at awaits <;> cases awaits
      all_goals first | rfl | exact fun _ => rfl
  | doneBcast isPc =>
      exact takes.send rfl (by rw [isPc]; rfl) ⟨by rw [isPc]; rfl, rfl⟩ (by rw [isPc]; rfl)
        (by rw [isPc]; rfl) (by rw [isPc]; rfl) rfl rfl
  | @subValue source isPc =>
      cases source with
      | none =>
          refine takes.release (fun _ => trivial) rfl ?_ ?_ ?_ (by rw [isPc]; rfl)
            (fun _ => ⟨by rw [isPc]; rfl, ?_⟩) (by simp [valuePhase]) rfl
          · exact ⟨by rw [isPc]; rfl, by split <;> rfl⟩
          · exact ⟨by rw [isPc]; rfl, by split <;> rfl⟩
          · exact ⟨by rw [isPc]; rfl, by split <;> rfl⟩
          · change _ = if process.tls.nValues = 1 then _ else _
            split <;> rfl
      | some source =>
          obtain ⟨uncollected, isSent, room⟩ := taking source isPc
          refine takes.collect (fun _ => trivial) isSent uncollected room
            (fun notOwner => valueQuiet_of_handler (items notOwner) isPc rfl rfl) rfl ?_ ?_ ?_
            (fun _ => ⟨by rw [isPc]; rfl, fun _ => ?_⟩) ?_ rfl
          · exact ⟨by rw [isPc]; rfl, by split <;> rfl⟩
          · exact ⟨by rw [isPc]; rfl, by split <;> rfl⟩
          · exact ⟨by rw [isPc]; rfl, by split <;> rfl⟩
          · change _ = if process.tls.nValues = 1 then _ else _
            split <;> rfl
          · simp [valuePhase]
  | valueCombine isPc =>
      rw [isPc] at fits
      exact takes.reply (fun _ => trivial) fits.1
        (valueQuiet_of_handler (items fits.1) isPc rfl rfl) rfl (by rw [isPc]; rfl)
        ⟨by rw [isPc]; rfl, rfl⟩ rfl rfl
  | @putFewer fromCount loaded isPc _ =>
      refine takes.quiet (notPut_pcs ..) ?_ ?_ (notPut_values ..) (by rw [notPut_tls])
      · rw [isPc]
        split <;> rfl
      · rw [isPc]
        split <;> exact fun _ => rfl
  | putUnlock isPc =>
      refine takes.quiet (notPut_pcs ..) ?_ ?_ (notPut_values ..) rfl
      · rw [isPc]
        split <;> rfl
      · rw [isPc]
        split <;> exact fun _ => rfl
  | gatherRelease isPc =>
      refine takes.quiet rfl ?_ ?_ (Log.gather_values ..) rfl
      · rw [isPc]
        split <;> rfl
      · rw [isPc]
        split <;> exact fun _ => rfl
  | _ isPc => exact takes.quiet rfl (by rw [isPc]; rfl) (fun _ => by rw [isPc]; rfl) rfl rfl

end Steps

section Runs

variable [Fintype Thread] [DecidableEq Thread] {s next : State n Thread α} {pid : Fin n}
  {thread : Option Thread} {process : Process n Thread α} {sent : List (Fin n × Msg n α)}

structure ValueWave (owner : Fin n) (s : State n Thread α) : Prop where
  gathers : valuePhase.Gathers owner s
  takes : ∀ pid, (s.proc pid).TakesValue owner pid
  learned : ∀ pid, (s.proc pid).Learned owner
  fires : ∀ pid, (s.proc pid).Fires owner pid

namespace ValueWave

omit [DecidableEq Thread] in
theorem known_of_sending {val : α} (wave : ValueWave owner s) (notOwner : pid ≠ owner)
    (isPc : (s.proc pid).pcs thread = .valueSend val) :
    (s.proc pid).tls.owner = some owner := by
  have sending : 0 < (valuePhase : Phase n Thread α).up pid pid ((s.proc pid).pcs thread) := by
    rw [isPc]
    simp [valuePhase]
  obtain ⟨replied, -, -⟩ := Sound.of_up wave.gathers notOwner (s.flow_pos sending _)
  exact (wave.learned pid).heard (wave.gathers.sent pid (wave.gathers.replied pid replied).2.1)

variable [Mul α] [One α] [Inhabited α]

theorem gathers_run (wave : ValueWave owner s) (roles : Roles owner s)
    (owned : Owned owner count s)
    (moved : Next pid count (s.proc pid) thread process sent) :
    valuePhase.Gathers owner { s.setProc pid process with chan := s.chan.send pid sent } := by
  have gathers := wave.gathers
  have fits := (owned.everywhere.processes pid).pcs thread
  cases moved with
  | plain isPlain =>
      exact gathers.keepRun rfl rfl (fun q notRoot => isPlain.valueDown fits notRoot)
        fun q _ => isPlain.valueUp q
  | exchange isPc =>
      refine gathers.keepRun rfl rfl (fun q _ => ?_) fun q _ => ?_
      all_goals rw [isPc]; split <;> rfl
  | learn learns =>
      refine gathers.keepRun rfl rfl (fun q _ => ?_) fun q _ => ?_
      all_goals
        cases isPc : (s.proc pid).pcs thread <;> rw [isPc] at learns <;> cases learns <;> rfl
  | hear isPc notMe =>
      rw [isPc] at fits
      obtain ⟨rfl, -, -⟩ := fits
      refine gathers.hearRun rfl (Ne.symm notMe) rfl (fun q _ => ?_) fun q _ => ?_
      · rw [isPc]
        exact Nat.zero_add _
      · rw [isPc]
        rfl
  | fire isPc available =>
      rw [isPc] at fits
      refine gathers.startRun rfl fits.1 rfl (fun q notRoot => ?_) fun q _ => ?_
      · rw [isPc]
        exact (if_neg fun same => notRoot (same.symm.trans fits.1)).symm
      · rw [isPc]
        rfl
  | guard guards =>
      refine gathers.keepRun rfl rfl (fun q _ => ?_) fun q _ => ?_
      all_goals
        cases isPc : (s.proc pid).pcs thread <;> rw [isPc] at guards <;> cases guards <;> rfl
  | store stores =>
      refine gathers.keepRun rfl rfl (fun q _ => ?_) fun q _ => ?_
      all_goals
        cases isPc : (s.proc pid).pcs thread <;> rw [isPc] at stores <;> cases stores <;> rfl
  | raise raises =>
      refine gathers.keepRun rfl rfl (fun q _ => ?_) fun q _ => ?_
      all_goals
        cases isPc : (s.proc pid).pcs thread <;> rw [isPc] at raises <;> cases raises <;> rfl
  | await awaits =>
      refine gathers.keepRun rfl rfl (fun q notRoot => ?_) fun q _ => ?_
      all_goals cases isPc : (s.proc pid).pcs thread <;> rw [isPc] at awaits fits <;> cases awaits
      all_goals first
        | rfl
        | exact if_neg fun same => notRoot (same.symm.trans fits.1)
  | doneBcast isPc =>
      rw [isPc] at fits
      obtain ⟨rfl, -⟩ := fits
      have isUnsent : (valuePhase : Phase n Thread α).unsent ((s.proc pid).pcs thread) = 1 := by
        rw [isPc]
        rfl
      obtain ⟨heard, unsent⟩ := (wave.takes pid).of_unsent isUnsent
      refine gathers.forwardRun rfl heard unsent rfl (fun q _ => ?_) fun q _ => ?_
      · rw [isPc]
        exact congrArg (0 + ·) (sum_receivers _ _ _ fun _ => rfl)
      · rw [isPc]
        exact (Nat.zero_add _).trans (sum_receivers_zero _ _ _ fun _ => rfl)
  | @subValue source isPc =>
      rw [isPc] at fits
      cases source with
      | none =>
          refine gathers.keepRun rfl (by simp [valuePhase]) (fun q _ => ?_) fun q _ => ?_
          all_goals rw [isPc]; split <;> rfl
      | some source =>
          refine gathers.collectRun rfl fits.2 (by simp [valuePhase]) (fun q _ => ?_) fun q _ => ?_
          · rw [isPc]
            split <;> rfl
          · rw [isPc]
            split <;> exact Nat.zero_add _
  | valueCombine isPc =>
      rw [isPc] at fits
      obtain ⟨isSent, unreplied, all, -⟩ := (wave.takes pid).of_replies (fun _ => trivial) fits.1
        (valueQuiet_of_handler (roles.items pid fits.1) isPc rfl rfl) (by rw [isPc]; rfl)
      refine gathers.replyRun rfl fits.1 isSent unreplied all rfl (fun q _ => ?_) fun q _ => ?_
      · rw [isPc]
        rfl
      · rw [isPc]
        exact Nat.add_comm _ 0
  | valueSend isPc known =>
      refine gathers.keepRun rfl rfl (fun q _ => ?_) fun q _ => ?_
      · rw [isPc]
        rfl
      · rw [isPc]
        exact Nat.zero_add _
  | valueLost isPc unknown =>
      rw [isPc] at fits
      have known := wave.known_of_sending fits.1 isPc
      rw [unknown] at known
      cases known
  | bcastSend isPc =>
      refine gathers.keepRun rfl rfl (fun q _ => ?_) fun q _ => ?_
      all_goals rw [isPc]; exact (Nat.zero_add _).trans (sum_receivers_zero _ _ _ fun _ => rfl)
  | putFewer isPc | putUnlock isPc =>
      refine gathers.keepRun (notPut_pcs ..) (notPut_values ..) (fun q _ => ?_) fun q _ => ?_
      all_goals rw [isPc]; split <;> rfl
  | gatherRelease isPc =>
      refine gathers.keepRun rfl (Log.gather_values ..) (fun q _ => ?_) fun q _ => ?_
      all_goals rw [isPc]; split <;> rfl
  | _ isPc =>
      refine gathers.keepRun rfl rfl (fun q _ => ?_) fun q _ => ?_
      all_goals rw [isPc]; rfl

theorem run (wave : ValueWave owner s) (roles : Roles owner s) (owned : Owned owner count s)
    (once : (s.proc pid).Once owner pid)
    (moved : Next pid count (s.proc pid) thread process sent) :
    ValueWave owner { s.setProc pid process with chan := s.chan.send pid sent } := by
  have ofPid := owned.everywhere.processes pid
  refine ⟨wave.gathers_run roles owned moved, setProc_forall wave.takes ?_,
    setProc_forall wave.learned ((wave.learned pid).moved ofPid moved),
    setProc_forall wave.fires ((wave.fires pid).moved ofPid once moved)⟩
  refine moved.takesValue (wave.takes pid) ofPid once (wave.fires pid) (roles.items pid)
    (fun o isPc notOwner => ?_) wave.gathers.collected_of_unsent fun source isPc => ?_
  · have switching : 0 < (valuePhase : Phase n Thread α).down pid pid
        ((s.proc pid).pcs thread) := by
      rw [isPc]
      simp [valuePhase]
    exact (Sound.of_down wave.gathers notOwner (s.flow_pos switching _)).1
  · have fits := ofPid.pcs thread
    rw [isPc] at fits
    have adding : 0 < (valuePhase : Phase n Thread α).up source pid ((s.proc pid).pcs thread) := by
      rw [isPc]
      simp [valuePhase]
    exact wave.gathers.of_taking fits.2 adding

omit [Mul α] [One α] [Inhabited α] in
theorem begin {pc : Pc n α} (wave : ValueWave owner s)
    (isPc : (s.proc pid).pcs thread = .idle)
    (pcs : process.pcs = ((s.proc pid).goto thread pc).pcs) (tls : process.tls = (s.proc pid).tls)
    (values : process.log.values = (s.proc pid).log.values)
    (fired : process.log.fired = (s.proc pid).log.fired)
    {chan : Channels (Fin n) (Msg n α)}
    (gathers : valuePhase.Gathers owner { s.setProc pid process with chan := chan })
    (threads : ∀ k, (valuePhase : Phase n Thread α).threads k pc = ((0, 0), 0, 0))
    (replies : (valuePhase : Phase n Thread α).replies pc = 0)
    (notSwitch : ∀ o, pc ≠ .doneSwitch o) :
    ValueWave owner { s.setProc pid process with chan := chan } := by
  refine ⟨gathers, setProc_forall wave.takes ?_, setProc_forall wave.learned ?_,
    setProc_forall wave.fires ?_⟩
  · refine (wave.takes pid).quiet pcs ?_ ?_ values (congrArg _ tls)
    · rw [isPc]
      exact threads _
    · rw [isPc]
      exact fun _ => replies
  · refine (wave.learned pid).change pcs ?_ (fun o isSwitch => absurd isSwitch (notSwitch o)) ?_
    · rw [tls]
      exact id
    · rw [values]
      exact .inl
  · intro isOwner
    rw [fired, values]
    exact wave.fires pid isOwner

end ValueWave

variable [Mul α] [One α] [Inhabited α]

theorem valueWave_of_reached (reached : Reached (system owner count) (Puts owner count) s) :
    ValueWave owner s := by
  refine reached.invariant (ValueWave owner) ?_ ?_
  · rintro state rfl
    refine ⟨Phase.gathers_start rfl (fun _ _ => rfl) fun _ _ => rfl,
      fun pid => takes_start rfl rfl rfl rfl,
      fun pid => ⟨fun _ _ impossible => (nomatch impossible), fun impossible => nomatch impossible⟩,
      fun pid _ => rfl⟩
  · intro state action next before wave allowed stepped
    have owned := owned_of_reached before
    cases taken_of_step stepped with
    | @putItem pid thread val isPc =>
        refine wave.begin isPc (by rfl) (by rfl) (by rfl) (by rfl)
          (wave.gathers.keepUpdate (by rfl) (by rfl) (fun q _ => ?_) fun q _ => ?_)
          (fun _ => by rfl) (by rfl) fun o isSwitch => ?_
        · rw [isPc]
          rfl
        · rw [isPc]
          rfl
        · cases isSwitch
    | @putCount thread isPc =>
        refine wave.begin isPc (by rfl) (by rfl) (by rfl) (by rfl)
          (wave.gathers.keepUpdate (by rfl) (by rfl) (fun q _ => ?_) fun q _ => ?_)
          (fun k => ?_) ?_ fun o isSwitch => ?_
        · rw [isPc]
          split <;> rfl
        · rw [isPc]
          split <;> rfl
        · split <;> rfl
        · split <;> rfl
        · split at isSwitch <;> cases isSwitch
    | @receive source target message rest isPc head =>
        refine wave.begin isPc (by rfl) (by rfl) (Log.hear_values ..) (Log.hear_fired ..)
          (wave.gathers.keepReceive (by rfl) head (Log.hear_values ..) (fun q _ => ?_)
            fun q _ => ?_) (fun k => ?_) ?_ fun o isSwitch => ?_
        · rw [isPc]
          cases message <;> exact (Nat.zero_add _).symm
        · rw [isPc]
          cases message <;> exact (Nat.zero_add _).symm
        · cases message <;> rfl
        · cases message <;> rfl
        · cases message <;> cases isSwitch
    | @run pid thread process sent moved =>
        exact wave.run (roles_of_reached before) owned (once_of_reached before pid) moved

end Runs

end CnC.Reduce
