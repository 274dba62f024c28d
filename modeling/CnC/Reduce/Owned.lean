import CnC.Reduce.Steps

/-!
# What is known about the owner

The processes learn from the messages of a reduction on which process its count has been put.
The owner goes through three stages, and what the threads and the messages know about it stays
true from then on.
-/

namespace CnC.Reduce

open Network Transition

variable {n : Nat} {Thread α : Type} {owner me : Fin n} {count : Int}

/-- How far the owner is: the count is stored, the owner knows that it is the owner, and it has
switched the reduction to BCAST_DONE. -/
structure Stage where
  ready : Prop
  opened : Prop
  fired : Prop

namespace Stage

structure Sound (stage : Stage) : Prop where
  opened : stage.fired → stage.opened
  ready : stage.opened → stage.ready

structure Le (stage stage' : Stage) : Prop where
  ready : stage.ready → stage'.ready
  opened : stage.opened → stage'.opened
  fired : stage.fired → stage'.fired

theorem Le.refl (stage : Stage) : stage.Le stage := ⟨id, id, id⟩

end Stage

def Process.stage (owner : Fin n) (count : Int) (process : Process n Thread α) : Stage where
  ready := process.tls.n = count
  opened := process.tls.owner = some owner
  fired := 0 < process.log.fired

def State.stage (owner : Fin n) (count : Int) (s : State n Thread α) : Stage :=
  (s.proc owner).stage owner count

/-- `source` sends its replies to `target`. -/
def Replies (owner source target : Fin n) : Prop :=
  source ≠ owner ∧ myParentForRoot owner source = target

/-- What a thread knows. -/
def Pc.Fits (owner : Fin n) (count : Int) (stage : Stage) (me : Fin n) : Pc n α → Prop
  | .idle | .addValue _ none | .itemCount | .itemStatus _ | .itemOwner _ | .itemSend => True
  | .itemTest _ | .itemCounts => me = owner ∧ stage.opened
  | .exchange receiver always | .sendCount receiver _ always =>
      me ≠ owner ∧ stage.opened ∧ receiver = if always then myParentForRoot owner me else owner
  | .doneOwner o => o = owner ∧ stage.ready ∧ (me ≠ owner → stage.fired)
  | .doneSwitch o => o = owner ∧ stage.opened ∧ (me ≠ owner → stage.fired)
  | .doneValues o | .doneBcast o => o = owner ∧ stage.fired
  | .addValue _ (some source) | .subValue (some source) => stage.fired ∧ Replies owner source me
  | .doneAdd sent => stage.fired ∧ sent = (bcast owner me).length
  | .doneFinish | .doneRelease | .subValue none | .valueOwner => stage.fired
  | .valueStatus | .valueN => me = owner ∧ stage.fired
  | .valueReduced loaded => me = owner ∧ stage.fired ∧ loaded = count
  | .valueCombine | .valueSend _ | .valueDone => me ≠ owner ∧ stage.fired
  | .putReduced fromCount | .putN fromCount _ | .putLock fromCount | .putStatus fromCount =>
      me = owner ∧ stage.ready ∧ if fromCount then count ≠ -1 else stage.fired
  | .putOut | .putDone | .putUnlock _ => me = owner ∧ stage.ready
  | .countN => me = owner ∧ count ≠ -1
  | .flagSwitch | .flagCounts => me = owner ∧ stage.ready ∧ count = -1
  | .bcastOwner o cnt => o = owner ∧ cnt = count ∧ stage.ready ∧ (me ≠ owner → stage.opened)
  | .bcastN o cnt | .bcastSwitch o cnt | .bcastCounts o cnt | .bcastSend o cnt =>
      o = owner ∧ cnt = count ∧ stage.opened
  | .bcastAdd o sent => o = owner ∧ stage.opened ∧ sent = (bcast owner me).length
  | .bcastRelease o => o = owner ∧ stage.opened
  | .gatherAdd source _ reply | .gatherRelease source reply =>
      stage.opened ∧ if reply then Replies owner source me else me = owner
  | .gatherOwner => stage.opened
  | .gatherN => me = owner ∧ stage.opened
  | .gatherTest loaded => me = owner ∧ stage.opened ∧ loaded = count
  | .gatherSend => me ≠ owner ∧ stage.opened

/-- What a message tells. -/
def Msg.Fits (owner : Fin n) (count : Int) (stage : Stage) (source target : Fin n) :
    Msg n α → Prop
  | .bcastCount o cnt => o = owner ∧ cnt = count ∧ target ≠ owner ∧ stage.opened
  | .gatherCount _ reply =>
      stage.opened ∧ if reply then Replies owner source target else target = owner
  | .done o => o = owner ∧ target ≠ owner ∧ stage.fired
  | .value _ => stage.fired ∧ Replies owner source target

structure Process.Owned (owner : Fin n) (count : Int) (stage : Stage) (me : Fin n)
    (process : Process n Thread α) : Prop where
  known : ∀ o, process.tls.owner = some o → o = owner ∧ stage.opened
  n : process.tls.n = -1 ∨ process.tls.n = count
  pcs : ∀ thread, (process.pcs thread).Fits owner count stage me

variable {stage stage' : Stage}

theorem Pc.Fits.mono {pc : Pc n α} (fits : pc.Fits owner count stage me) (le : stage.Le stage') :
    pc.Fits owner count stage' me := by
  obtain ⟨ready, opened, fired⟩ := le
  cases pc with
  | addValue val source => cases source <;> simp_all [Pc.Fits]
  | subValue source => cases source <;> simp_all [Pc.Fits]
  | putReduced fromCount | putN fromCount | putLock fromCount | putStatus fromCount =>
      cases fromCount <;> simp_all [Pc.Fits]
  | _ => simp_all [Pc.Fits]

theorem Msg.Fits.mono {message : Msg n α} {source target : Fin n}
    (fits : message.Fits owner count stage source target) (le : stage.Le stage') :
    message.Fits owner count stage' source target := by
  obtain ⟨ready, opened, fired⟩ := le
  cases message <;> simp_all [Msg.Fits]

theorem Process.Owned.mono {process : Process n Thread α}
    (owned : process.Owned owner count stage me) (le : stage.Le stage') :
    process.Owned owner count stage' me :=
  ⟨fun o known => ⟨(owned.known o known).1, le.opened (owned.known o known).2⟩, owned.n,
    fun thread => (owned.pcs thread).mono le⟩

section Steps

variable [DecidableEq Thread] {process next : Process n Thread α} {thread : Option Thread}
  {pc : Pc n α}

theorem Process.Owned.keep (owned : process.Owned owner count stage me)
    (pcs : next.pcs = (process.goto thread pc).pcs) (fits : pc.Fits owner count stage me)
    (sameOwner : next.tls.owner = process.tls.owner) (sameN : next.tls.n = process.tls.n) :
    next.Owned owner count stage me := by
  refine ⟨fun o known => ?_, ?_, fun other => ?_⟩
  · rw [sameOwner] at known
    exact owned.known o known
  · rw [sameN]
    exact owned.n
  · rw [pcs, pcs_goto]
    split
    · exact fits
    · exact owned.pcs other

omit [DecidableEq Thread] in
theorem Plain.fits {pc' : Pc n α} (moved : Plain me process pc pc')
    (owned : process.Owned owner count stage me) (sound : stage.Sound)
    (isStage : me = owner → process.stage owner count = stage)
    (fits : pc.Fits owner count stage me) : pc'.Fits owner count stage me := by
  have opened (isMe : me = owner) : stage.opened ↔ process.tls.owner = some owner := by
    rw [← isStage isMe]
    exact Iff.rfl
  have stored (isMe : me = owner) : stage.ready ↔ process.tls.n = count := by
    rw [← isStage isMe]
    exact Iff.rfl
  cases moved with
  | itemOwn known => exact owned.known me known
  | itemAll => exact fits
  | itemDone => exact ⟨fits.1, sound.ready fits.2, fun notMe => absurd fits.1 notMe⟩
  | itemSend known notMe =>
      obtain ⟨rfl, -⟩ := owned.known _ known
      exact ⟨Ne.symm notMe, (owned.known _ known).2, rfl⟩
  | valueOwn known => exact ⟨(owned.known me known).1, fits⟩
  | valueAlien unknown =>
      refine ⟨fun isMe => ?_, fits⟩
      subst isMe
      exact unknown ((opened rfl).mp (sound.opened fits))
  | valueFinished => exact fits
  | valueN =>
      exact ⟨fits.1, fits.2, (stored fits.1).mp (sound.ready (sound.opened fits.2))⟩
  | putReduced => exact fits
  | putAll => exact fits
  | putDone => exact ⟨fits.1, fits.2.1⟩
  | putFirst => exact ⟨fits.1, fits.2.1⟩
  | gatherOwn known => exact ⟨(owned.known me known).1, fits⟩
  | gatherAlien unknown =>
      refine ⟨fun isMe => ?_, fits⟩
      subst isMe
      exact unknown ((opened rfl).mp fits)
  | gatherN => exact ⟨fits.1, fits.2, (stored fits.1).mp (sound.ready fits.2)⟩
  | gatherAll =>
      exact ⟨fits.1, sound.ready fits.2.1, fun notMe => absurd fits.1 notMe⟩
  | gatherSend known notMe =>
      obtain ⟨rfl, -⟩ := owned.known _ known
      exact ⟨fits.1, fits.2, rfl⟩
  | itemStatus | itemAlien | itemLocal | itemFewer | itemGathering | itemNowhere | doneAlready
  | valueUnfinished | gatherFewer | gatherNowhere => trivial

/-- Where the owner has got to when one of the processes has taken a step. -/
def stageAfter (owner : Fin n) (count : Int) (stage : Stage) (me : Fin n)
    (next : Process n Thread α) : Stage :=
  if me = owner then next.stage owner count else stage

theorem sendCount_routed {receiver : Fin n} {always : Bool} (notOwner : me ≠ owner)
    (isReceiver : receiver = if always then myParentForRoot owner me else owner) :
    if always then Replies owner me receiver else receiver = owner := by
  subst isReceiver
  cases always with
  | true => exact ⟨notOwner, rfl⟩
  | false => exact rfl

theorem notPut_fits {fromCount : Bool} (isMe : me = owner) (ready : stage.ready) :
    (if fromCount then .bcastOwner me count else .idle : Pc n α).Fits owner count stage me := by
  cases fromCount with
  | true => exact ⟨isMe, rfl, ready, fun notMe => absurd isMe notMe⟩
  | false => trivial

/-- What holds when a process has taken a step. -/
structure Stepped (owner : Fin n) (count : Int) (stage : Stage) (me : Fin n)
    (next : Process n Thread α) (sent : List (Fin n × Msg n α)) : Prop where
  le : stage.Le (stageAfter owner count stage me next)
  sound : (stageAfter owner count stage me next).Sound
  owned : next.Owned owner count (stageAfter owner count stage me next) me
  sent : ∀ target message, (target, message) ∈ sent →
    message.Fits owner count (stageAfter owner count stage me next) me target

theorem Process.Owned.quiet {sent : List (Fin n × Msg n α)}
    (owned : process.Owned owner count stage me) (sound : stage.Sound)
    (isStage : me = owner → process.stage owner count = stage)
    (pcs : next.pcs = (process.goto thread pc).pcs) (fits : pc.Fits owner count stage me)
    (sameOwner : next.tls.owner = process.tls.owner) (sameN : next.tls.n = process.tls.n)
    (sameFired : next.log.fired = process.log.fired)
    (sentFits : ∀ target message, (target, message) ∈ sent →
      message.Fits owner count stage me target) :
    Stepped owner count stage me next sent := by
  have same : stageAfter owner count stage me next = stage := by
    unfold stageAfter
    split
    · rename_i isMe
      rw [← isStage isMe]
      simp only [Process.stage, sameOwner, sameN, sameFired]
    · rfl
  refine ⟨?_, ?_, ?_, ?_⟩ <;> rw [same]
  · exact .refl stage
  · exact sound
  · exact owned.keep pcs fits sameOwner sameN
  · exact sentFits

theorem nothing_fits (owner : Fin n) (count : Int) (stage : Stage) (me target : Fin n)
    (message : Msg n α) (sent : (target, message) ∈ ([] : List (Fin n × Msg n α))) :
    message.Fits owner count stage me target :=
  absurd sent List.not_mem_nil

theorem Process.Owned.further (owned : process.Owned owner count stage me)
    (le : stage.Le (stageAfter owner count stage me next))
    (sound : (stageAfter owner count stage me next).Sound)
    (pcs : next.pcs = (process.goto thread pc).pcs)
    (fits : pc.Fits owner count (stageAfter owner count stage me next) me)
    (known : ∀ o, next.tls.owner = some o →
      o = owner ∧ (stageAfter owner count stage me next).opened)
    (isN : next.tls.n = -1 ∨ next.tls.n = count) :
    Stepped owner count stage me next ([] : List (Fin n × Msg n α)) := by
  refine ⟨le, sound, ⟨known, isN, fun other => ?_⟩, nothing_fits owner count _ me⟩
  rw [pcs, pcs_goto]
  split
  · exact fits
  · exact (owned.pcs other).mono le

theorem Process.Owned.learn {o : Fin n} (owned : process.Owned owner count stage me)
    (sound : stage.Sound) (isStage : me = owner → process.stage owner count = stage)
    (learns : Learns o (process.pcs thread) pc) :
    Stepped owner count stage me
      { process.goto thread pc with tls := { process.tls with owner := some o } }
      ([] : List (Fin n × Msg n α)) := by
  have fits := owned.pcs thread
  obtain ⟨rfl, ready, later⟩ : o = owner ∧ stage.ready ∧ (me ≠ owner → stage.opened) := by
    cases isPc : process.pcs thread <;> rw [isPc] at learns fits <;> cases learns
    · exact ⟨fits.1, fits.2.1, fun notMe => sound.opened (fits.2.2 notMe)⟩
    · exact ⟨fits.1, fits.2.2.1, fits.2.2.2⟩
  have le : stage.Le (stageAfter o count stage me
      { process.goto thread pc with tls := { process.tls with owner := some o } }) := by
    unfold stageAfter
    split
    · rename_i isMe
      rw [← isStage isMe]
      exact ⟨id, fun _ => rfl, id⟩
    · exact .refl stage
  have opened : (stageAfter o count stage me
      { process.goto thread pc with
        tls := { process.tls with owner := some o } }).opened := by
    unfold stageAfter
    split
    · exact rfl
    · rename_i notMe
      exact later notMe
  refine owned.further le ⟨fun _ => opened, fun _ => le.ready ready⟩ rfl ?_
    (fun o' known => ⟨(Option.some.inj known).symm, opened⟩) owned.n
  cases isPc : process.pcs thread <;> rw [isPc] at learns fits <;> cases learns
  · exact ⟨rfl, opened, fun notMe => le.fired (fits.2.2 notMe)⟩
  · exact ⟨rfl, fits.2.1, opened⟩

theorem Process.Owned.fire (owned : process.Owned owner count stage me) (sound : stage.Sound)
    (isStage : me = owner → process.stage owner count = stage)
    (isPc : process.pcs thread = .doneSwitch me) :
    Stepped owner count stage me
      { process.goto thread (.doneValues me) with
        tls := { process.tls with status := .bcastDone }
        log := { process.log with
          values := { process.log.values with heard := true }
          fired := process.log.fired + 1 } }
      ([] : List (Fin n × Msg n α)) := by
  have fits := owned.pcs thread
  rw [isPc] at fits
  obtain ⟨rfl, opened, -⟩ := fits
  have isStage := isStage rfl
  subst isStage
  have after : stageAfter me count (process.stage me count) me
      { process.goto thread (.doneValues me) with
        tls := { process.tls with status := .bcastDone }
        log := { process.log with
          values := { process.log.values with heard := true }
          fired := process.log.fired + 1 } } =
      ⟨process.tls.n = count, process.tls.owner = some me, 0 < process.log.fired + 1⟩ :=
    if_pos rfl
  refine owned.further ?_ ?_ rfl ?_ ?_ owned.n
  all_goals rw [after]
  · exact ⟨id, id, fun _ => Nat.succ_pos _⟩
  · exact ⟨fun _ => opened, sound.ready⟩
  · exact ⟨rfl, Nat.succ_pos _⟩
  · exact owned.known

theorem Process.Owned.store {cnt : Int} (owned : process.Owned owner count stage me)
    (sound : stage.Sound) (isStage : me = owner → process.stage owner count = stage)
    (stores : Stores process.tls count (process.pcs thread) pc cnt) :
    Stepped owner count stage me
      { process.goto thread pc with tls := { process.tls with n := cnt } }
      ([] : List (Fin n × Msg n α)) := by
  have fits := owned.pcs thread
  obtain rfl : cnt = count := by
    cases isPc : process.pcs thread <;> rw [isPc] at stores fits <;> cases stores
    · rfl
    · exact fits.2.1
  have le : stage.Le (stageAfter owner cnt stage me
      { process.goto thread pc with tls := { process.tls with n := cnt } }) := by
    unfold stageAfter
    split
    · rename_i isMe
      rw [← isStage isMe]
      exact ⟨fun _ => rfl, id, id⟩
    · exact .refl stage
  have sound' : (stageAfter owner cnt stage me
      { process.goto thread pc with tls := { process.tls with n := cnt } }).Sound := by
    unfold stageAfter
    split
    · rename_i isMe
      rw [← isStage isMe] at sound
      exact ⟨sound.opened, fun _ => rfl⟩
    · exact sound
  refine owned.further le sound' rfl ?_
    (fun o known => ⟨(owned.known o known).1, le.opened (owned.known o known).2⟩) (.inr rfl)
  cases isPc : process.pcs thread <;> rw [isPc] at stores fits <;> cases stores
  · refine ⟨fits.1, ?_, fits.2⟩
    rw [show stageAfter owner cnt stage me _ = _ from if_pos fits.1]
    exact rfl
  · exact ⟨fits.1, rfl, le.opened fits.2.2⟩

variable [Mul α] [One α] [Inhabited α] {sent : List (Fin n × Msg n α)}

theorem Process.Owned.stepped (owned : process.Owned owner count stage me) (sound : stage.Sound)
    (isStage : me = owner → process.stage owner count = stage)
    (moved : Next me count process thread next sent) :
    Stepped owner count stage me next sent := by
  have fits := owned.pcs thread
  cases moved with
  | plain isPlain =>
      exact owned.quiet sound isStage rfl (isPlain.fits owned sound isStage fits) rfl rfl rfl
        (nothing_fits owner count stage me)
  | addItem isPc =>
      exact owned.quiet sound isStage rfl trivial rfl rfl rfl
        (nothing_fits owner count stage me)
  | addValue isPc =>
      rw [isPc] at fits
      exact owned.quiet sound isStage rfl fits rfl rfl rfl
        (nothing_fits owner count stage me)
  | itemCount isPc =>
      exact owned.quiet sound isStage rfl trivial rfl rfl rfl
        (nothing_fits owner count stage me)
  | @exchange receiver always isPc =>
      rw [isPc] at fits
      refine owned.quiet sound isStage rfl ?_ rfl rfl rfl (nothing_fits owner count stage me)
      split
      · exact fits
      · trivial
  | sendCount isPc =>
      rw [isPc] at fits
      refine owned.quiet sound isStage rfl trivial rfl rfl rfl fun target message sent => ?_
      cases List.mem_singleton.mp sent
      exact ⟨fits.2.1, sendCount_routed fits.1 fits.2.2⟩
  | learn learns => exact owned.learn sound isStage learns
  | hear isPc notMe =>
      rw [isPc] at fits
      obtain ⟨rfl, -, fired⟩ := fits
      exact owned.quiet sound isStage rfl ⟨rfl, fired (Ne.symm notMe)⟩ rfl rfl rfl
        (nothing_fits _ count stage me)
  | fire isPc available => exact owned.fire sound isStage isPc
  | guard guards =>
      refine owned.quiet sound isStage rfl ?_ rfl rfl rfl (nothing_fits owner count stage me)
      cases isPc : process.pcs thread <;> rw [isPc] at guards fits <;> cases guards
      · exact fits
      · exact fits.1
      · exact fits
  | doneBcast isPc =>
      rw [isPc] at fits
      obtain ⟨rfl, fired⟩ := fits
      refine owned.quiet sound isStage rfl ⟨fired, rfl⟩ rfl rfl rfl
        fun target message sent => ?_
      obtain ⟨receiver, listed, same⟩ := List.mem_map.mp sent
      cases same
      exact ⟨rfl, fun isOwner => root_notMem_bcast _ me (isOwner ▸ listed), fired⟩
  | doneFinish isPc =>
      rw [isPc] at fits
      exact owned.quiet sound isStage rfl fits rfl rfl rfl
        (nothing_fits owner count stage me)
  | @subValue source isPc =>
      rw [isPc] at fits
      refine owned.quiet sound isStage rfl ?_ rfl rfl rfl (nothing_fits owner count stage me)
      split
      · cases source with
        | none => exact fits
        | some source => exact fits.1
      · trivial
  | valueReduced isPc =>
      rw [isPc] at fits
      exact owned.quiet sound isStage rfl
        ⟨fits.1, sound.ready (sound.opened fits.2.1), fits.2.1⟩ rfl rfl rfl
        (nothing_fits owner count stage me)
  | valueCombine isPc =>
      rw [isPc] at fits
      exact owned.quiet sound isStage rfl fits rfl rfl rfl
        (nothing_fits owner count stage me)
  | valueSend isPc known =>
      rw [isPc] at fits
      refine owned.quiet sound isStage rfl fits rfl rfl rfl
        fun target message sent => ?_
      cases List.mem_singleton.mp sent
      obtain ⟨rfl, -⟩ := owned.known _ known
      exact ⟨fits.2, fits.1, rfl⟩
  | valueLost isPc unknown =>
      rw [isPc] at fits
      exact owned.quiet sound isStage rfl fits rfl rfl rfl
        (nothing_fits owner count stage me)
  | valueDone isPc =>
      exact owned.quiet sound isStage rfl trivial rfl rfl rfl
        (nothing_fits owner count stage me)
  | putFewer isPc fewer =>
      rw [isPc] at fits
      exact owned.quiet sound isStage (notPut_pcs ..) (notPut_fits fits.1 fits.2.1)
        (by rw [notPut_tls]) (by rw [notPut_tls]) (notPut_fired ..)
        (nothing_fits owner count stage me)
  | putLock isPc unlocked =>
      rw [isPc] at fits
      exact owned.quiet sound isStage rfl fits rfl rfl rfl
        (nothing_fits owner count stage me)
  | putOut isPc =>
      rw [isPc] at fits
      exact owned.quiet sound isStage rfl fits rfl rfl rfl
        (nothing_fits owner count stage me)
  | putDone isPc =>
      rw [isPc] at fits
      exact owned.quiet sound isStage rfl fits rfl rfl rfl
        (nothing_fits owner count stage me)
  | putUnlock isPc =>
      rw [isPc] at fits
      exact owned.quiet sound isStage (notPut_pcs ..) (notPut_fits fits.1 fits.2) rfl rfl
        (notPut_fired ..) (nothing_fits owner count stage me)
  | store stores => exact owned.store sound isStage stores
  | raise raises =>
      refine owned.quiet sound isStage rfl ?_ rfl rfl rfl (nothing_fits owner count stage me)
      cases isPc : process.pcs thread <;> rw [isPc] at raises fits <;> cases raises
      · exact fits
      · exact fits
  | await awaits =>
      refine owned.quiet sound isStage rfl ?_ rfl rfl rfl (nothing_fits owner count stage me)
      cases isPc : process.pcs thread <;> rw [isPc] at awaits fits <;> cases awaits
      · exact ⟨fits.1, fits.2.1, fun notMe => absurd fits.1 notMe⟩
      · exact fits
      · exact ⟨fits.1, fits.2.1⟩
      · rename_i one notMe notParent
        obtain ⟨rfl, opened⟩ := fits
        exact ⟨Ne.symm notMe, opened, rfl⟩
      · trivial
  | bcastSend isPc =>
      rw [isPc] at fits
      obtain ⟨rfl, rfl, opened⟩ := fits
      refine owned.quiet sound isStage rfl ⟨rfl, opened, rfl⟩ rfl rfl rfl
        fun target message sent => ?_
      obtain ⟨receiver, listed, same⟩ := List.mem_map.mp sent
      cases same
      exact ⟨rfl, rfl, fun isOwner => root_notMem_bcast _ me (isOwner ▸ listed), opened⟩
  | gatherAdd isPc =>
      rw [isPc] at fits
      exact owned.quiet sound isStage rfl fits rfl rfl rfl
        (nothing_fits owner count stage me)
  | gatherRelease isPc =>
      rw [isPc] at fits
      refine owned.quiet sound isStage rfl ?_ rfl rfl (Log.gather_fired ..)
        (nothing_fits owner count stage me)
      split
      · exact fits.1
      · trivial

end Steps

section Runs

variable {s next : State n Thread α}

theorem stage_setProc (owner : Fin n) (count : Int) (s : State n Thread α) (pid : Fin n)
    (process : Process n Thread α) (chan : Channels (Fin n) (Msg n α)) :
    State.stage owner count { s.setProc pid process with chan := chan } =
      stageAfter owner count (s.stage owner count) pid process := by
  unfold stageAfter
  split
  · rename_i isOwner
    subst isOwner
    simp [State.stage, State.setProc]
  · rename_i notOwner
    simp [State.stage, State.setProc, Function.update_of_ne (Ne.symm notOwner)]

structure Owned (owner : Fin n) (count : Int) (s : State n Thread α) : Prop where
  sound : (s.stage owner count).Sound
  everywhere : Everywhere (fun pid process => process.Owned owner count (s.stage owner count) pid)
    (fun source target message => message.Fits owner count (s.stage owner count) source target)
    s.proc s.chan

namespace Owned

theorem isStage (s : State n Thread α) (pid : Fin n) (isOwner : pid = owner) :
    (s.proc pid).stage owner count = s.stage owner count := by
  rw [isOwner]
  rfl

theorem apply (owned : Owned owner count s) {pid : Fin n} {process : Process n Thread α}
    {chan : Channels (Fin n) (Msg n α)} {sent : List (Fin n × Msg n α)}
    (stepped : Stepped owner count (s.stage owner count) pid process sent)
    (old : ∀ i j message, message ∈ chan i j → message ∈ s.chan i j) :
    Owned owner count { s.setProc pid process with chan := chan.send pid sent } := by
  have everywhere : Everywhere
      (fun pid process => process.Owned owner count (s.stage owner count) pid)
      (fun source target message =>
        message.Fits owner count (s.stage owner count) source target) s.proc chan :=
    ⟨owned.everywhere.processes, fun i j message membership =>
      owned.everywhere.messages i j message (old i j message membership)⟩
  refine ⟨?_, ?_⟩ <;> rw [stage_setProc]
  · exact stepped.sound
  · refine (everywhere.imp (fun pid process fits => fits.mono stepped.le)
      fun i j message fits => fits.mono stepped.le).apply stepped.owned stepped.sent

theorem start [One α] (owner : Fin n) (count : Int) :
    Owned owner count (Reduce.start n Thread α) := by
  refine ⟨⟨fun fired => absurd fired (Nat.lt_irrefl 0), fun opened => nomatch opened⟩,
    fun pid => ⟨fun o known => (nomatch known), .inl rfl, fun _ => trivial⟩, ?_⟩
  intro i j message membership
  exact absurd membership List.not_mem_nil

theorem handler_fits {message : Msg n α} {source target : Fin n} {stage : Stage}
    (sound : stage.Sound) (fits : message.Fits owner count stage source target) :
    (handler source message).Fits owner count stage target := by
  cases message with
  | bcastCount o cnt =>
      exact ⟨fits.1, fits.2.1, sound.ready fits.2.2.2, fun _ => fits.2.2.2⟩
  | gatherCount cnt reply => exact fits
  | done o => exact ⟨fits.1, sound.ready (sound.opened fits.2.2), fun _ => fits.2.2⟩
  | value val => exact fits

theorem putCount_fits (owned : Owned owner count s) :
    (if count = -1 then .flagSwitch else .countN : Pc n α).Fits owner count
      (s.stage owner count) owner := by
  split
  · rename_i isFlag
    refine ⟨rfl, ?_⟩
    rcases (owned.everywhere.processes owner).n with none | stored
    · exact ⟨none.trans isFlag.symm, isFlag⟩
    · exact ⟨stored, isFlag⟩
  · rename_i notFlag
    exact ⟨rfl, notFlag⟩

variable [DecidableEq Thread] [Mul α] [One α] [Inhabited α]

theorem step (owned : Owned owner count s) {action : Action n Thread α}
    (taken : Taken owner count s action next) : Owned owner count next := by
  cases taken with
  | @putItem pid thread val isPc =>
      have moved : Stepped owner count (s.stage owner count) pid
          { (s.proc pid).goto thread (.addValue val none) with
            log := { (s.proc pid).log with items := (s.proc pid).log.items ++ [val] } } [] :=
        (owned.everywhere.processes pid).quiet owned.sound (isStage s pid) rfl trivial rfl rfl rfl
          (nothing_fits owner count _ _)
      have after := owned.apply moved
        fun (i j : Fin n) (other : Msg n α) (old : other ∈ s.chan i j) => old
      rw [Channels.send_nil] at after
      exact after
  | @putCount thread isPc =>
      have moved : Stepped owner count (s.stage owner count) owner
          { (s.proc owner).goto thread (if count = -1 then .flagSwitch else .countN) with
            log := { (s.proc owner).log with put := true } } [] :=
        (owned.everywhere.processes owner).quiet owned.sound (isStage s owner) rfl
          owned.putCount_fits rfl rfl rfl (nothing_fits owner count _ _)
      have after := owned.apply moved
        fun (i j : Fin n) (other : Msg n α) (old : other ∈ s.chan i j) => old
      rw [Channels.send_nil] at after
      exact after
  | @receive source target message rest isPc head =>
      have arrived : message ∈ s.chan source target := by
        rw [head]
        exact List.mem_cons_self
      have moved : Stepped owner count (s.stage owner count) target
          { (s.proc target).goto none (handler source message) with
            log := (s.proc target).log.hear message } [] :=
        (owned.everywhere.processes target).quiet owned.sound (isStage s target) rfl
          (handler_fits owned.sound (owned.everywhere.messages source target message arrived))
          rfl rfl (Log.hear_fired ..) (nothing_fits owner count _ _)
      have after := owned.apply moved
        fun _ _ _ membership => Channels.mem_of_mem_setQueue_tail head membership
      rwa [Channels.send_nil] at after
  | run moved =>
      exact owned.apply ((owned.everywhere.processes _).stepped owned.sound (isStage s _) moved)
        fun _ _ _ membership => membership

end Owned

theorem owned_of_reached [DecidableEq Thread] [Mul α] [One α] [Inhabited α]
    {allowed : State n Thread α → Action n Thread α → Prop}
    (reached : Reached (system owner count) allowed s) : Owned owner count s := by
  refine reached.invariant (Owned owner count) ?_ ?_
  · rintro state rfl
    exact .start owner count
  · intro state action next _ owned _ stepped
    exact owned.step (taken_of_step stepped)

end Runs

end CnC.Reduce
