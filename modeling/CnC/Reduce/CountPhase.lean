import CnC.Reduce.Phase

/-!
# The gathering of the counts

The owner broadcasts the count, and the processes reply with the numbers of items which they have
counted.
-/

namespace CnC.Reduce

open Convergecast Network Transition

variable {n : Nat} {Thread α : Type} {owner me : Fin n} {count : Int}

/-- BCASTCOUNT and the GATHERCOUNTs which reply to it. -/
def countPhase : Phase n Thread α where
  part log := log.counts
  counter tls := tls.nCounts
  down _ _ _ := 0
  downMsg q _ target
    | .bcastCount _ _ => if target = q then 1 else 0
    | _ => 0
  up q pid
    | .sendCount _ _ true => if pid = q then 1 else 0
    | .gatherAdd source _ true | .gatherRelease source true => if source = q then 1 else 0
    | _ => 0
  upMsg q source _
    | .gatherCount _ true => if source = q then 1 else 0
    | _ => 0
  broadcasts
    | .bcastOwner _ _ | .bcastN _ _ | .bcastSwitch _ _ | .bcastCounts _ _ | .bcastSend _ _
    | .bcastAdd _ _ | .bcastRelease _ => 1
    | _ => 0
  unsent
    | .bcastOwner _ _ | .bcastN _ _ | .bcastSwitch _ _ | .bcastCounts _ _ | .bcastSend _ _ => 1
    | _ => 0
  closed
    | .bcastOwner _ _ | .bcastN _ _ | .bcastSwitch _ _ | .bcastCounts _ _ => 1
    | _ => 0
  bias k
    | .bcastSend _ _ | .bcastAdd _ _ => 1 - k
    | .bcastRelease _ => 1
    | _ => 0
  replies
    | .gatherOwner | .gatherSend | .exchange _ true => 1
    | _ => 0
  closed_nonneg pc := by cases pc <;> simp
  closed_le pc := by cases pc <;> simp
  unsent_le pc := by cases pc <;> simp
  replies_nonneg pc := by split <;> simp
  bias_eq_zero k pc := by cases pc <;> simp

namespace Pc

def ofItem : Pc n α → Bool
  | idle | addValue _ none | itemCount | itemStatus _ | itemOwner _ | itemTest _ | itemSend
  | exchange _ false | sendCount _ _ false => true
  | _ => false

/-- What the thread adds to `nCounts`. -/
def addend : Pc n α → Option Int
  | bcastAdd _ sent => some sent
  | bcastRelease _ | gatherRelease _ _ => some (-1)
  | _ => none

def counting : Pc n α → Int
  | countN | putReduced true | putN true _ | putLock true | putStatus true | putUnlock true => 1
  | _ => 0

def Told (owner : Fin n) (tls : RedTls n Thread α) : Pc n α → Prop
  | bcastN _ _ | bcastSwitch _ _ => tls.owner = some owner
  | bcastCounts _ _ | bcastSend _ _ => tls.owner = some owner ∧ tls.status ≠ .localOnly
  | _ => True

end Pc

/-- The operation of the thread does not take `nCounts` out of the range of an `int`. -/
def Process.InRange (process : Process n Thread α) (thread : Option Thread) : Prop :=
  ∀ difference ∈ (process.pcs thread).addend,
    -2 ^ 31 ≤ process.tls.nCounts + difference ∧ process.tls.nCounts + difference < 2 ^ 31

instance (process : Process n Thread α) (thread : Option Thread) :
    Decidable (process.InRange thread) :=
  match isAddend : (process.pcs thread).addend with
  | none => .isTrue (by simp [Process.InRange, isAddend])
  | some difference => decidable_of_iff
      (-2 ^ 31 ≤ process.tls.nCounts + difference ∧ process.tls.nCounts + difference < 2 ^ 31)
      (by simp [Process.InRange, isAddend])

section Steps

variable {process : Process n Thread α} {pc pc' : Pc n α}

theorem Process.InRange.addCounts {thread : Option Thread} (inRange : process.InRange thread)
    (isPc : process.pcs thread = pc) {difference : Int} (adds : pc.addend = some difference) :
    process.tls.addCounts difference = process.tls.nCounts + difference := by
  obtain ⟨lower, upper⟩ := inRange difference (isPc ▸ adds)
  refine Int.bmod_eq_of_le ?_ ?_
  · exact lower
  · exact upper

theorem Learns.not_ofItem (learns : Learns owner pc pc') : pc.ofItem = false := by
  cases learns <;> rfl

theorem Guards.not_ofItem {tls : RedTls n Thread α} {nValues : Int}
    (guards : Guards tls pc pc' nValues) : pc.ofItem = false := by
  cases guards <;> rfl

theorem Stores.not_ofItem {tls : RedTls n Thread α} {cnt : Int}
    (stores : Stores tls count pc pc' cnt) : pc.ofItem = false := by
  cases stores <;> rfl

theorem Raises.not_ofItem (raises : Raises pc pc') : pc.ofItem = false := by
  cases raises <;> rfl

theorem Awaits.not_ofItem {tls : RedTls n Thread α} {nCounts : Int}
    (awaits : Awaits me tls pc pc' nCounts) : pc.ofItem = false := by
  cases awaits <;> rfl

theorem Plain.ofItem (moved : Plain me process pc pc') (item : pc.ofItem = true) :
    pc'.ofItem = true ∨ pc' = .itemCounts ∧ ∃ counted, pc = .itemTest counted := by
  cases moved <;> first | exact .inl rfl | exact .inr ⟨rfl, _, rfl⟩ | cases item

variable [DecidableEq Thread] {next : Process n Thread α} {thread : Option Thread}
  [Mul α] [One α] [Inhabited α] {sent : List (Fin n × Msg n α)}

/-- Off the owner, only the thread which handles messages does anything but the callbacks of
items. -/
def Process.OnlyItems (owner me : Fin n) (process : Process n Thread α) : Prop :=
  me ≠ owner → ∀ thread : Thread, (process.pcs thread).ofItem = true

theorem Next.ofItem {stage : Stage} (owned : process.Owned owner count stage me)
    (notOwner : me ≠ owner) (moved : Next me count process thread next sent)
    (item : (process.pcs thread).ofItem = true) : (next.pcs thread).ofItem = true := by
  cases moved with
  | plain isPlain =>
      rw [pcs_goto, if_pos rfl]
      refine (isPlain.ofItem item).resolve_right ?_
      rintro ⟨-, counted, isPc⟩
      have fits := owned.pcs thread
      rw [isPc] at fits
      exact notOwner fits.1
  | addItem | itemCount =>
      change ((process.goto thread _).pcs thread).ofItem = true
      rw [pcs_goto, if_pos rfl]
      rfl
  | @exchange receiver always isPc =>
      change ((process.goto thread _).pcs thread).ofItem = true
      rw [pcs_goto, if_pos rfl]
      cases always with
      | true =>
          rw [isPc] at item
          cases item
      | false => split <;> rfl
  | sendCount => rw [pcs_goto, if_pos rfl]; rfl
  | learn learns => exact absurd item (Bool.eq_false_iff.mp learns.not_ofItem)
  | guard guards => exact absurd item (Bool.eq_false_iff.mp guards.not_ofItem)
  | store stores => exact absurd item (Bool.eq_false_iff.mp stores.not_ofItem)
  | raise raises => exact absurd item (Bool.eq_false_iff.mp raises.not_ofItem)
  | await awaits => exact absurd item (Bool.eq_false_iff.mp awaits.not_ofItem)
  | _ isPc =>
      rw [isPc] at item
      cases item

theorem Next.keeps {stage : Stage} (owned : process.Owned owner count stage me)
    (moved : Next me count process thread next sent) :
    (process.tls.owner = some owner → next.tls.owner = some owner) ∧
      (process.tls.status ≠ .localOnly → next.tls.status ≠ .localOnly) := by
  have fits := owned.pcs thread
  cases moved with
  | learn learns =>
      refine ⟨fun _ => ?_, id⟩
      cases isPc : process.pcs thread <;> rw [isPc] at learns fits <;> cases learns
      · exact congrArg some fits.1
      · exact congrArg some fits.1
  | fire isPc available => exact ⟨id, fun _ => by rintro ⟨⟩⟩
  | doneFinish isPc =>
      refine ⟨id, fun later => ?_⟩
      change switch _ _ _ ≠ _
      unfold switch
      split
      · decide
      · exact later
  | raise raises =>
      refine ⟨id, fun later => ?_⟩
      change switch _ _ _ ≠ _
      rw [switch, if_neg later]
      exact later
  | valueDone | putDone => exact ⟨id, fun _ => by rintro ⟨⟩⟩
  | putFewer | putUnlock => simp only [notPut_tls]; exact ⟨id, id⟩
  | _ => exact ⟨id, id⟩

structure Process.Tells (owner : Fin n) (process : Process n Thread α) : Prop where
  pcs : ∀ thread, (process.pcs thread).Told owner process.tls
  sent : process.log.counts.sent = true →
    process.tls.owner = some owner ∧ process.tls.status ≠ .localOnly

omit [DecidableEq Thread] [Mul α] [One α] [Inhabited α] in
theorem Pc.Told.mono {tls tls' : RedTls n Thread α} (told : pc.Told owner tls)
    (sameOwner : tls.owner = some owner → tls'.owner = some owner)
    (later : tls.status ≠ .localOnly → tls'.status ≠ .localOnly) : pc.Told owner tls' := by
  cases pc with
  | bcastN | bcastSwitch => exact sameOwner told
  | bcastCounts | bcastSend => exact ⟨sameOwner told.1, later told.2⟩
  | _ => trivial

omit [Mul α] [One α] [Inhabited α] in
theorem Process.Tells.change (tells : process.Tells owner)
    (pcs : next.pcs = (process.goto thread pc).pcs)
    (keeps : (process.tls.owner = some owner → next.tls.owner = some owner) ∧
      (process.tls.status ≠ .localOnly → next.tls.status ≠ .localOnly))
    (told : pc.Told owner next.tls) (sent : next.log.counts.sent = true →
      process.log.counts.sent = true ∨ ∃ cnt, process.pcs thread = .bcastSend owner cnt) :
    next.Tells owner := by
  refine ⟨fun other => ?_, fun isSent => ?_⟩
  · rw [pcs, pcs_goto]
    split
    · exact told
    · exact (tells.pcs other).mono keeps.1 keeps.2
  · rcases sent isSent with before | ⟨cnt, isPc⟩
    · exact (tells.sent before).imp keeps.1 keeps.2
    · have before := tells.pcs thread
      rw [isPc] at before
      exact before.imp keeps.1 keeps.2

omit [DecidableEq Thread] [Mul α] [One α] [Inhabited α] in
theorem Plain.told (moved : Plain me process pc pc') {tls : RedTls n Thread α} :
    pc'.Told owner tls := by
  cases moved <;> trivial

theorem Process.Tells.moved {stage : Stage} (tells : process.Tells owner)
    (owned : process.Owned owner count stage me)
    (moved : Next me count process thread next sent) : next.Tells owner := by
  have keeps := moved.keeps owned
  have fits := owned.pcs thread
  have told := tells.pcs thread
  cases moved with
  | plain isPlain => exact tells.change rfl keeps isPlain.told .inl
  | learn learns =>
      refine tells.change rfl keeps ?_ .inl
      cases isPc : process.pcs thread <;> rw [isPc] at learns fits <;> cases learns
      · trivial
      · exact congrArg some fits.1
  | guard guards =>
      refine tells.change rfl keeps ?_ .inl
      cases isPc : process.pcs thread <;> rw [isPc] at guards <;> cases guards <;> trivial
  | store stores =>
      refine tells.change rfl keeps ?_ .inl
      cases isPc : process.pcs thread <;> rw [isPc] at stores told <;> cases stores
      · trivial
      · exact told
  | raise raises =>
      refine tells.change rfl keeps ?_ .inl
      cases isPc : process.pcs thread <;> rw [isPc] at raises told <;> cases raises
      · trivial
      · refine ⟨told, ?_⟩
        change switch _ _ _ ≠ _
        unfold switch
        split
        · nofun
        · assumption
  | await awaits =>
      refine tells.change rfl keeps ?_ .inl
      cases isPc : process.pcs thread <;> rw [isPc] at awaits told <;> cases awaits
      · trivial
      · exact told
      · trivial
      · trivial
      · trivial
  | bcastSend isPc =>
      rw [isPc] at fits
      obtain ⟨rfl, -⟩ := fits
      exact tells.change rfl keeps trivial fun _ => .inr ⟨_, isPc⟩
  | exchange isPc | subValue isPc =>
      refine tells.change rfl keeps ?_ .inl
      split <;> trivial
  | gatherRelease isPc =>
      refine tells.change rfl keeps ?_ ?_
      · split <;> trivial
      · rw [Log.gather_sent]
        exact .inl
  | putFewer isPc | putUnlock isPc =>
      refine tells.change (notPut_pcs ..) keeps ?_ ?_
      · split <;> trivial
      · rw [notPut_sent]
        exact .inl
  | _ isPc => exact tells.change rfl keeps trivial .inl

variable [Fintype Thread]

def Process.announced (process : Process n Thread α) : Int :=
  process.log.counts.heard.toNat + process.sum Pc.counting

/-- The count is broadcast once, after it has been put. -/
def Process.Announces (owner me : Fin n) (process : Process n Thread α) : Prop :=
  me = owner → process.announced ≤ process.log.put.toNat

omit [DecidableEq Thread] [Fintype Thread] [Mul α] [One α] [Inhabited α] in
theorem Pc.counting_nonneg (pc : Pc n α) : 0 ≤ pc.counting := by
  unfold counting
  split <;> simp

omit [DecidableEq Thread] [Fintype Thread] [Mul α] [One α] [Inhabited α] in
theorem Plain.counting (moved : Plain me process pc pc') : pc'.counting ≤ pc.counting := by
  cases moved with
  | @putReduced fromCount | @putAll fromCount | @putDone fromCount _ =>
      cases fromCount <;> exact le_rfl
  | putFirst => exact Pc.counting_nonneg _
  | _ => exact le_rfl

omit [Mul α] [One α] [Inhabited α] in
theorem Process.announced_le (pcs : next.pcs = (process.goto thread pc).pcs)
    (heard : next.log.counts.heard = process.log.counts.heard)
    (le : pc.counting ≤ (process.pcs thread).counting) : next.announced ≤ process.announced := by
  unfold Process.announced
  rw [heard, Process.sum_goto pcs]
  omega

omit [Mul α] [One α] [Inhabited α] in
theorem Process.announced_notPut {fromCount : Bool} {tls : RedTls n Thread α}
    (isCounting : fromCount = true → (process.pcs thread).counting = 1) :
    Process.announced { process.notPut thread me count fromCount with tls := tls } ≤
      process.announced := by
  cases fromCount with
  | false => exact Process.announced_le rfl rfl (Pc.counting_nonneg _)
  | true =>
      have sum := Process.sum_goto
        (show ({ process.notPut thread me count true with tls := tls } : Process n Thread α).pcs =
          (process.goto thread (.bcastOwner me count)).pcs from rfl) Pc.counting
      rw [isCounting rfl] at sum
      change ((true.toNat : Nat) : Int) + Process.sum _ _ ≤ _
      rw [sum]
      change ((1 : Nat) : Int) + (_ - 1 + 0) ≤ process.log.counts.heard.toNat + _
      omega

theorem Next.announced (moved : Next me count process thread next sent) :
    next.announced ≤ process.announced := by
  cases moved with
  | plain isPlain => exact Process.announced_le rfl rfl isPlain.counting
  | learn learns =>
      refine Process.announced_le rfl rfl ?_
      cases isPc : process.pcs thread <;> rw [isPc] at learns <;> cases learns <;> exact le_rfl
  | guard guards =>
      refine Process.announced_le rfl rfl ?_
      cases isPc : process.pcs thread <;> rw [isPc] at guards <;> cases guards <;> exact le_rfl
  | store stores =>
      refine Process.announced_le rfl rfl ?_
      cases isPc : process.pcs thread <;> rw [isPc] at stores <;> cases stores <;> exact le_rfl
  | raise raises =>
      refine Process.announced_le rfl rfl ?_
      cases isPc : process.pcs thread <;> rw [isPc] at raises <;> cases raises <;> exact le_rfl
  | await awaits =>
      refine Process.announced_le rfl rfl ?_
      cases isPc : process.pcs thread <;> rw [isPc] at awaits <;> cases awaits <;> exact le_rfl
  | exchange isPc | subValue isPc =>
      refine Process.announced_le rfl rfl (le_trans ?_ (Pc.counting_nonneg _))
      split <;> exact le_rfl
  | gatherRelease isPc =>
      refine Process.announced_le rfl (Log.gather_heard ..) (le_trans ?_ (Pc.counting_nonneg _))
      split <;> exact le_rfl
  | @putLock fromCount isPc =>
      refine Process.announced_le rfl rfl ?_
      rw [isPc]
      cases fromCount <;> exact le_rfl
  | putFewer isPc | putUnlock isPc =>
      refine Process.announced_notPut fun isTrue => ?_
      rw [isPc, isTrue]
      rfl
  | _ isPc => exact Process.announced_le rfl rfl (Pc.counting_nonneg _)

abbrev Process.TakesCount (owner me : Fin n) (process : Process n Thread α) : Prop :=
  process.Takes countPhase (me ≠ owner) (me ≠ owner) (bcast owner me).length

omit [DecidableEq Thread] [Mul α] [One α] [Inhabited α] in
theorem Process.sum_of_handler [DecidableEq Thread] {measure : Pc n α → Int}
    (nothing : ∀ pc, pc.ofItem = true → measure pc = 0)
    (items : ∀ thread : Thread, (process.pcs thread).ofItem = true)
    (isHandler : (process.pcs thread).ofItem = false) :
    process.sum measure = measure (process.pcs thread) := by
  refine process.sum_eq thread fun other different => nothing _ ?_
  cases other with
  | some other => exact items other
  | none =>
      cases thread with
      | none => exact absurd rfl different
      | some thread => exact absurd (items thread) (Bool.eq_false_iff.mp isHandler)

omit [DecidableEq Thread] [Mul α] [One α] [Inhabited α] [Fintype Thread] in
theorem broadcasts_ofItem (pc : Pc n α) (item : pc.ofItem = true) :
    (countPhase : Phase n Thread α).broadcasts pc = 0 := by
  cases pc <;> first | rfl | cases item

omit [DecidableEq Thread] [Mul α] [One α] [Inhabited α] [Fintype Thread] in
theorem Plain.threads (moved : Plain me process pc pc') (k : Nat) :
    (countPhase : Phase n Thread α).threads k pc' =
      (countPhase : Phase n Thread α).threads k pc := by
  cases moved <;> rfl

omit [DecidableEq Thread] [Mul α] [One α] [Inhabited α] [Fintype Thread] in
theorem Plain.replies (moved : Plain me process pc pc') (notOwner : me ≠ owner)
    (known : ∀ o, process.tls.owner = some o → o = owner)
    (told : pc = .gatherSend → process.tls.owner = some owner)
    (parent : myParentForRoot owner me ≠ me) :
    (countPhase : Phase n Thread α).replies pc' = (countPhase : Phase n Thread α).replies pc := by
  cases moved with
  | gatherOwn isOwner => exact absurd (known me isOwner) notOwner
  | gatherNowhere nowhere =>
      rcases nowhere with unknown | ⟨o, isOwner, isMe⟩
      · rw [told rfl] at unknown
        cases unknown
      · rw [known o isOwner] at isMe
        exact absurd isMe parent
  | _ => rfl

omit [DecidableEq Thread] [Mul α] [One α] [Inhabited α] [Fintype Thread] in
theorem parent_ne (notOwner : me ≠ owner) : myParentForRoot owner me ≠ me := by
  intro same
  have deeper := (tree owner).depth_parent me notOwner
  rw [show (tree owner).parent me = me from same] at deeper
  exact absurd deeper (Nat.lt_irrefl _)

omit [DecidableEq Thread] [Mul α] [One α] [Inhabited α] in
theorem unheard_of_counting (atMost : process.announced ≤ 1)
    (isCounting : (process.pcs thread).counting = 1) : process.log.counts.heard = false := by
  have some_ := process.le_sum Pc.counting_nonneg thread
  unfold Process.announced at atMost
  rw [← Bool.toNat_eq_zero]
  omega

omit [Mul α] [One α] [Inhabited α] in
theorem quiet_of_handler (items : ∀ thread : Thread, (process.pcs thread).ofItem = true)
    (isPc : process.pcs thread = pc) (isHandler : pc.ofItem = false)
    (none : (countPhase : Phase n Thread α).broadcasts pc = 0) :
    process.sum (countPhase : Phase n Thread α).broadcasts = 0 := by
  subst isPc
  exact (Process.sum_of_handler (fun pc item => broadcasts_ofItem pc item) items
    isHandler).trans none

theorem Next.takesCount {stage : Stage} (natural : 0 ≤ count) (inRange : process.InRange thread)
    (takes : process.TakesCount owner me)
    (owned : process.Owned owner count stage me) (tells : process.Tells owner)
    (items : process.OnlyItems owner me)
    (atMost : me = owner → process.announced ≤ 1)
    (unsent : process.log.counts.sent = false → process.log.counts.collected = ∅)
    (taking : ∀ source, process.pcs thread = .gatherRelease source true →
      source ∉ process.log.counts.collected ∧ process.log.counts.sent = true ∧
        process.log.counts.collected.card < (bcast owner me).length)
    (moved : Next me count process thread next sent) : next.TakesCount owner me := by
  have fits := owned.pcs thread
  cases moved with
  | plain isPlain =>
      refine takes.quiet rfl (isPlain.threads _) (fun notOwner => ?_) rfl rfl
      refine isPlain.replies notOwner (fun o known => (owned.known o known).1) (fun isPc => ?_)
        (parent_ne notOwner)
      have quiet := quiet_of_handler (items notOwner) isPc rfl rfl
      exact (tells.sent (takes.of_replies id notOwner quiet (by rw [isPc]; rfl)).1).1
  | @exchange receiver always isPc =>
      rw [isPc] at fits
      cases always with
      | true =>
          exact takes.reply id fits.1 (quiet_of_handler (items fits.1) isPc rfl rfl) rfl
            (by rw [isPc]; rfl) ⟨by rw [isPc]; rfl, rfl⟩
            (by simp [countPhase, Bool.or_true]) rfl
      | false =>
          refine takes.quiet rfl ?_ ?_ (by simp [countPhase]) rfl
          · rw [isPc]
            split <;> rfl
          · rw [isPc]
            split <;> exact fun _ => rfl
  | learn learns =>
      refine takes.quiet rfl ?_ ?_ rfl rfl
      all_goals cases isPc : process.pcs thread <;> rw [isPc] at learns <;> cases learns
      all_goals first | rfl | exact fun _ => rfl
  | guard guards =>
      refine takes.quiet rfl ?_ ?_ rfl rfl
      all_goals cases isPc : process.pcs thread <;> rw [isPc] at guards <;> cases guards
      all_goals first | rfl | exact fun _ => rfl
  | store stores =>
      refine takes.quiet rfl ?_ ?_ rfl rfl
      all_goals cases isPc : process.pcs thread <;> rw [isPc] at stores <;> cases stores
      all_goals first | rfl | exact fun _ => rfl
  | raise raises =>
      refine takes.quiet rfl ?_ ?_ rfl rfl
      all_goals cases isPc : process.pcs thread <;> rw [isPc] at raises <;> cases raises
      all_goals first | rfl | exact fun _ => rfl
  | @await pc nCounts awaits =>
      cases isPc : process.pcs thread <;> rw [isPc] at awaits fits <;> cases awaits
      case flagCounts.flag => exact absurd natural (by rw [fits.2.2]; decide)
      case bcastCounts.begin =>
          refine takes.open id (unsent (takes.of_unsent (by rw [isPc]; rfl)).2) rfl
            ⟨by rw [isPc]; rfl, rfl⟩ (by rw [isPc]; rfl) ⟨by rw [isPc]; rfl, rfl⟩
            (by rw [isPc]; rfl) rfl ?_ ?_
          · change (1 : Int) = (bcast owner me).length + (1 - (bcast owner me).length)
            omega
          · change (0 : Int) < (bcast owner me).length + (1 - (bcast owner me).length)
            omega
      case bcastAdd.add =>
          obtain ⟨rfl, -, rfl⟩ := fits
          rw [inRange.addCounts isPc rfl]
          refine takes.adjust id rfl ⟨by rw [isPc]; rfl, rfl⟩ (by rw [isPc]; rfl)
            ⟨by rw [isPc]; rfl, rfl⟩ ?_ (by rw [isPc]; rfl) rfl rfl ?_
          · rw [isPc]
            change (1 : Int) = 1 - (bcast _ me).length + (bcast _ me).length
            omega
          · rw [isPc]
            change (0 : Int) < (bcast _ me).length + (1 - (bcast _ me).length) ∧
              (0 : Int) < (bcast _ me).length + 1
            omega
      case bcastRelease.leaf =>
          rename_i isZero _ _
          rw [inRange.addCounts isPc rfl] at isZero ⊢
          have one : process.tls.nCounts = 1 := by omega
          refine takes.release id rfl ⟨by rw [isPc]; rfl, rfl⟩ ⟨by rw [isPc]; rfl, rfl⟩
            ⟨by rw [isPc]; rfl, rfl⟩ (by rw [isPc]; rfl) (fun _ => ⟨by rw [isPc]; rfl, ?_⟩) rfl rfl
          change (1 : Int) = if process.tls.nCounts = 1 then 1 else 0
          rw [if_pos one]
      case bcastRelease.release =>
          rename_i waits
          obtain ⟨rfl, -⟩ := fits
          rw [inRange.addCounts isPc rfl] at waits ⊢
          refine takes.release id rfl ⟨by rw [isPc]; rfl, rfl⟩ ⟨by rw [isPc]; rfl, rfl⟩
            ⟨by rw [isPc]; rfl, rfl⟩ (by rw [isPc]; rfl)
            (fun notOwner => ⟨by rw [isPc]; rfl, ?_⟩) rfl rfl
          change (0 : Int) = if process.tls.nCounts = 1 then 1 else 0
          rw [if_neg fun one => parent_ne notOwner (waits (by omega) (Ne.symm notOwner))]
  | bcastSend isPc =>
      exact takes.send rfl (by rw [isPc]; rfl) ⟨by rw [isPc]; rfl, rfl⟩ (by rw [isPc]; rfl)
        (by rw [isPc]; rfl) (by rw [isPc]; rfl) rfl rfl
  | @gatherRelease source reply isPc =>
      rw [isPc] at fits
      rw [inRange.addCounts isPc rfl]
      cases reply with
      | true =>
          obtain ⟨uncollected, isSent, room⟩ := taking source isPc
          refine takes.collect id isSent uncollected room
            (fun notOwner => quiet_of_handler (items notOwner) isPc rfl rfl) rfl ?_ ?_ ?_
            (fun _ => ⟨by rw [isPc]; rfl, ?_⟩) rfl rfl
          · exact ⟨by rw [isPc]; rfl, by split <;> rfl⟩
          · exact ⟨by rw [isPc]; rfl, by split <;> rfl⟩
          · exact ⟨by rw [isPc]; rfl, by split <;> rfl⟩
          · intro positive
            have positive : 0 < process.tls.nCounts := positive
            change _ = if process.tls.nCounts = 1 then _ else _
            simp only [show process.tls.nCounts + -1 ≤ 0 ↔ process.tls.nCounts = 1 by omega]
            split <;> rfl
      | false =>
          have isOwner : me = owner := fits.2
          refine takes.extra (not_not.mpr isOwner) (not_not.mpr isOwner) rfl ?_ rfl
            (Int.sub_le_self _ Int.one_nonneg)
          rw [isPc]
          split <;> rfl
  | subValue isPc =>
      refine takes.quiet rfl ?_ ?_ rfl rfl
      · rw [isPc]
        split <;> rfl
      · rw [isPc]
        split <;> exact fun _ => rfl
  | @putFewer fromCount loaded isPc _ =>
      rw [isPc] at fits
      cases fromCount with
      | true =>
          refine takes.hear (unheard_of_counting (atMost fits.1) (by rw [isPc]; rfl))
            (fun notOwner => absurd fits.1 notOwner) rfl ⟨by rw [isPc]; rfl, rfl⟩
            ⟨by rw [isPc]; rfl, rfl⟩ ⟨by rw [isPc]; rfl, rfl⟩ (by rw [isPc]; rfl) rfl rfl
      | false =>
          exact takes.quiet rfl (by rw [isPc]; rfl) (fun _ => by rw [isPc]; rfl) rfl rfl
  | @putUnlock fromCount isPc =>
      rw [isPc] at fits
      cases fromCount with
      | true =>
          refine takes.hear (unheard_of_counting (atMost fits.1) (by rw [isPc]; rfl))
            (fun notOwner => absurd fits.1 notOwner) rfl ⟨by rw [isPc]; rfl, rfl⟩
            ⟨by rw [isPc]; rfl, rfl⟩ ⟨by rw [isPc]; rfl, rfl⟩ (by rw [isPc]; rfl) rfl rfl
      | false =>
          exact takes.quiet rfl (by rw [isPc]; rfl) (fun _ => by rw [isPc]; rfl) rfl rfl
  | _ isPc => exact takes.quiet rfl (by rw [isPc]; rfl) (fun _ => by rw [isPc]; rfl) rfl rfl

omit [Fintype Thread] in
theorem Next.put (moved : Next me count process thread next sent) :
    next.log.put = process.log.put := by
  cases moved with
  | putFewer | putUnlock => exact notPut_put ..
  | gatherRelease => exact Log.gather_put ..
  | _ => rfl

omit [Fintype Thread] in
theorem Next.pcs_other (moved : Next me count process thread next sent) {other : Option Thread}
    (different : other ≠ thread) : next.pcs other = process.pcs other := by
  cases moved with
  | putFewer | putUnlock =>
      exact (congrFun (notPut_pcs ..) other).trans ((pcs_goto ..).trans (if_neg different))
  | _ => exact (pcs_goto ..).trans (if_neg different)

omit [DecidableEq Thread] [Mul α] [One α] [Inhabited α] [Fintype Thread] in
theorem Plain.countUp (moved : Plain me process pc pc') (q : Fin n) :
    (countPhase : Phase n Thread α).up q me pc' = (countPhase : Phase n Thread α).up q me pc := by
  cases moved <;> rfl

end Steps

section Runs

variable [Fintype Thread] [DecidableEq Thread] {s next : State n Thread α}

/-- Items and the count are put as they should be, and `nCounts` does not wrap around. -/
def PutsInRange (owner : Fin n) (count : Int) (s : State n Thread α) (action : Action n Thread α) :
    Prop :=
  Puts owner count s action ∧
    match action with
    | .run pid thread => (s.proc pid).InRange thread
    | _ => True

omit [Fintype Thread] in
theorem puts_of_inRange [Mul α] [One α] [Inhabited α]
    (reached : Reached (system owner count) (PutsInRange owner count) s) :
    Reached (system owner count) (Puts owner count) s :=
  reached.weaken fun _ _ inRange => inRange.1

/-- Which threads take part in the broadcasts of the reduction. -/
structure Roles (owner : Fin n) (s : State n Thread α) : Prop where
  items : ∀ pid, (s.proc pid).OnlyItems owner pid
  announced : ∀ pid, (s.proc pid).Announces owner pid

structure CountWave (owner : Fin n) (s : State n Thread α) : Prop where
  gathers : countPhase.Gathers owner s
  takes : ∀ pid, (s.proc pid).TakesCount owner pid
  tells : ∀ pid, (s.proc pid).Tells owner

variable {pid : Fin n} {thread : Option Thread} {process : Process n Thread α}

theorem Roles.begin (roles : Roles owner s) {pc : Pc n α} {chan : Channels (Fin n) (Msg n α)}
    (isPc : (s.proc pid).pcs thread = .idle)
    (pcs : process.pcs = ((s.proc pid).goto thread pc).pcs)
    (item : pid ≠ owner → ∀ other : Thread, some other = thread → pc.ofItem = true)
    (announced : pid = owner →
      process.log.counts.heard = (s.proc pid).log.counts.heard ∧
        (s.proc pid).announced + pc.counting ≤ process.log.put.toNat) :
    Roles owner { s.setProc pid process with chan := chan } := by
  refine ⟨setProc_forall roles.items fun notOwner other => ?_,
    setProc_forall roles.announced fun isOwner => ?_⟩
  · rw [pcs, pcs_goto]
    split
    · rename_i same
      exact item notOwner other same
    · exact roles.items pid notOwner other
  · obtain ⟨heard, atMost⟩ := announced isOwner
    refine le_trans (le_of_eq ?_) atMost
    unfold Process.announced
    rw [heard, Process.sum_goto pcs, isPc]
    change _ + (_ - 0 + _) = _
    omega

variable [Mul α] [One α] [Inhabited α] {sent : List (Fin n × Msg n α)}

theorem Roles.run (roles : Roles owner s) (owned : Owned owner count s)
    (moved : Next pid count (s.proc pid) thread process sent) :
    Roles owner { s.setProc pid process with chan := s.chan.send pid sent } := by
  refine ⟨setProc_forall roles.items fun notOwner other => ?_,
    setProc_forall roles.announced fun isOwner => ?_⟩
  · by_cases same : some other = thread
    · subst same
      exact moved.ofItem (owned.everywhere.processes pid) notOwner
        (roles.items pid notOwner other)
    · rw [moved.pcs_other same]
      exact roles.items pid notOwner other
  · rw [moved.put]
    exact moved.announced.trans (roles.announced pid isOwner)

theorem roles_of_reached (reached : Reached (system owner count) (Puts owner count) s) :
    Roles owner s := by
  refine reached.invariant (Roles owner) ?_ ?_
  · rintro state rfl
    refine ⟨fun pid _ thread => rfl, fun pid _ => le_of_eq ?_⟩
    exact (Int.zero_add _).trans (Finset.sum_eq_zero fun _ _ => rfl)
  · intro state action next before roles allowed stepped
    cases taken_of_step stepped with
    | @putItem pid thread val isPc =>
        refine roles.begin isPc rfl (fun _ _ _ => rfl) fun isOwner => ⟨rfl, ?_⟩
        exact (add_zero _).trans_le (roles.announced pid isOwner)
    | @putCount thread isPc =>
        have announced := roles.announced owner rfl
        rw [allowed.1, Bool.toNat_false] at announced
        refine roles.begin isPc rfl (fun notOwner => absurd rfl notOwner) fun _ => ⟨rfl, ?_⟩
        split
        · exact (add_zero _).trans_le (announced.trans (Int.natCast_nonneg _))
        · exact Int.add_le_add_right announced 1
    | @receive source target message rest isPc head =>
        have fits := (owned_of_reached before).everywhere.messages source target message
          (head ▸ List.mem_cons_self)
        refine roles.begin isPc rfl (fun _ _ isHandler => (nomatch isHandler)) fun isOwner => ?_
        cases message with
        | bcastCount => exact absurd isOwner fits.2.2.1
        | _ => exact ⟨rfl, (add_zero _).trans_le (roles.announced target isOwner)⟩
    | run moved => exact roles.run (owned_of_reached before) moved

namespace CountWave

theorem gathers_run (wave : CountWave owner s) (roles : Roles owner s)
    (owned : Owned owner count s)
    (moved : Next pid count (s.proc pid) thread process sent) :
    countPhase.Gathers owner { s.setProc pid process with chan := s.chan.send pid sent } := by
  have gathers := wave.gathers
  have fits := (owned.everywhere.processes pid).pcs thread
  cases moved with
  | plain isPlain => exact gathers.keepRun rfl rfl (fun _ _ => rfl) fun q _ => isPlain.countUp q
  | @exchange receiver always isPc =>
      rw [isPc] at fits
      cases always with
      | true =>
          obtain ⟨isSent, unreplied, all, -⟩ := (wave.takes pid).of_replies id fits.1
            (quiet_of_handler (roles.items pid fits.1) isPc rfl rfl) (by rw [isPc]; rfl)
          refine gathers.replyRun rfl fits.1 isSent unreplied all (by simp [countPhase])
            (fun _ _ => rfl) fun q _ => ?_
          rw [isPc]
          exact Nat.add_comm _ 0
      | false =>
          refine gathers.keepRun rfl (by simp [countPhase]) (fun _ _ => rfl) fun q _ => ?_
          rw [isPc]
          split <;> rfl
  | @sendCount receiver cnt always isPc =>
      refine gathers.keepRun rfl rfl (fun _ _ => rfl) fun q _ => ?_
      rw [isPc]
      cases always with
      | true => exact Nat.zero_add _
      | false => rfl
  | learn learns =>
      refine gathers.keepRun rfl rfl (fun _ _ => rfl) fun q _ => ?_
      cases isPc : (s.proc pid).pcs thread <;> rw [isPc] at learns <;> cases learns <;> rfl
  | guard guards =>
      refine gathers.keepRun rfl rfl (fun _ _ => rfl) fun q _ => ?_
      cases isPc : (s.proc pid).pcs thread <;> rw [isPc] at guards <;> cases guards <;> rfl
  | store stores =>
      refine gathers.keepRun rfl rfl (fun _ _ => rfl) fun q _ => ?_
      cases isPc : (s.proc pid).pcs thread <;> rw [isPc] at stores <;> cases stores <;> rfl
  | raise raises =>
      refine gathers.keepRun rfl rfl (fun _ _ => rfl) fun q _ => ?_
      cases isPc : (s.proc pid).pcs thread <;> rw [isPc] at raises <;> cases raises <;> rfl
  | await awaits =>
      refine gathers.keepRun rfl rfl (fun _ _ => rfl) fun q _ => ?_
      cases isPc : (s.proc pid).pcs thread <;> rw [isPc] at awaits <;> cases awaits <;> rfl
  | @doneBcast o isPc =>
      refine gathers.keepRun rfl rfl (fun q _ => ?_) fun q _ => ?_
      · exact (Nat.zero_add _).trans (sum_receivers_zero _ _ _ fun _ => rfl)
      · rw [isPc]
        exact (Nat.zero_add _).trans (sum_receivers_zero _ _ _ fun _ => rfl)
  | bcastSend isPc =>
      rw [isPc] at fits
      obtain ⟨rfl, rfl, -⟩ := fits
      have isUnsent : (countPhase : Phase n Thread α).unsent ((s.proc pid).pcs thread) = 1 := by
        rw [isPc]
        rfl
      obtain ⟨heard, unsent⟩ := (wave.takes pid).of_unsent isUnsent
      refine gathers.forwardRun rfl heard unsent rfl (fun q _ => ?_) fun q _ => ?_
      · exact congrArg (0 + ·) (sum_receivers _ _ _ fun _ => rfl)
      · rw [isPc]
        exact (Nat.zero_add _).trans (sum_receivers_zero _ _ _ fun _ => rfl)
  | subValue isPc =>
      refine gathers.keepRun rfl rfl (fun _ _ => rfl) fun q _ => ?_
      rw [isPc]
      split <;> rfl
  | @putFewer fromCount loaded isPc _ =>
      rw [isPc] at fits
      cases fromCount with
      | true => exact gathers.startRun rfl fits.1 rfl (fun _ _ => rfl) fun q _ => by rw [isPc]; rfl
      | false => exact gathers.keepRun rfl rfl (fun _ _ => rfl) fun q _ => by rw [isPc]; rfl
  | @putUnlock fromCount isPc =>
      rw [isPc] at fits
      cases fromCount with
      | true => exact gathers.startRun rfl fits.1 rfl (fun _ _ => rfl) fun q _ => by rw [isPc]; rfl
      | false => exact gathers.keepRun rfl rfl (fun _ _ => rfl) fun q _ => by rw [isPc]; rfl
  | @gatherAdd source cnt reply isPc =>
      refine gathers.keepRun rfl rfl (fun _ _ => rfl) fun q _ => ?_
      rw [isPc]
      cases reply <;> rfl
  | @gatherRelease source reply isPc =>
      rw [isPc] at fits
      cases reply with
      | true =>
          refine gathers.collectRun rfl fits.2 rfl (fun _ _ => rfl) fun q _ => ?_
          rw [isPc]
          split <;> exact Nat.zero_add _
      | false =>
          refine gathers.keepRun rfl rfl (fun _ _ => rfl) fun q _ => ?_
          rw [isPc]
          split <;> rfl
  | _ isPc => exact gathers.keepRun rfl rfl (fun _ _ => rfl) fun q _ => by rw [isPc]; rfl

theorem run (wave : CountWave owner s) (natural : 0 ≤ count) (roles : Roles owner s)
    (owned : Owned owner count s) (inRange : (s.proc pid).InRange thread)
    (moved : Next pid count (s.proc pid) thread process sent) :
    CountWave owner { s.setProc pid process with chan := s.chan.send pid sent } := by
  have ofPid := owned.everywhere.processes pid
  refine ⟨wave.gathers_run roles owned moved, setProc_forall wave.takes ?_,
    setProc_forall wave.tells ((wave.tells pid).moved ofPid moved)⟩
  refine moved.takesCount natural inRange (wave.takes pid) ofPid (wave.tells pid) (roles.items pid)
    (fun isOwner => ?_) wave.gathers.collected_of_unsent fun source isPc => ?_
  · have bound := Bool.toNat_le (s.proc pid).log.put
    have announced := roles.announced pid isOwner
    omega
  · have fits := ofPid.pcs thread
    rw [isPc] at fits
    have taking : 0 < (countPhase : Phase n Thread α).up source pid
        ((s.proc pid).pcs thread) := by
      rw [isPc]
      simp [countPhase]
    exact wave.gathers.of_taking fits.2 taking

omit [Mul α] [One α] [Inhabited α] in
theorem update (wave : CountWave owner s) {thread : Thread} {pc : Pc n α}
    (isPc : (s.proc pid).pcs thread = .idle)
    (pcs : process.pcs = ((s.proc pid).goto thread pc).pcs) (tls : process.tls = (s.proc pid).tls)
    (counts : process.log.counts = (s.proc pid).log.counts)
    (threads : ∀ k, (countPhase : Phase n Thread α).threads k pc = ((0, 0), 0, 0))
    (replies : (countPhase : Phase n Thread α).replies pc = 0)
    (up : ∀ q, (countPhase : Phase n Thread α).up q pid pc = 0)
    (told : pc.Told owner (s.proc pid).tls) : CountWave owner (s.setProc pid process) := by
  refine ⟨wave.gathers.keepUpdate pcs counts (fun _ _ => rfl) fun q _ => ?_,
    setProc_forall wave.takes ?_, setProc_forall wave.tells ?_⟩
  · rw [isPc, up]
    rfl
  · refine (wave.takes pid).quiet pcs ?_ ?_ counts (congrArg _ tls)
    · rw [isPc]
      exact threads _
    · rw [isPc]
      exact fun _ => replies
  · refine (wave.tells pid).change pcs ?_ ?_ ?_
    · rw [tls]
      exact ⟨id, id⟩
    · rw [tls]
      exact told
    · rw [counts]
      exact .inl

omit [Mul α] [One α] [Inhabited α] in
theorem receive (wave : CountWave owner s) (owned : Owned owner count s) {source target : Fin n}
    {message : Msg n α} {rest : List (Msg n α)} (isPc : (s.proc target).pcs none = .idle)
    (head : s.chan source target = message :: rest) :
    CountWave owner { s.setProc target { (s.proc target).goto none (handler source message) with
        log := (s.proc target).log.hear message } with
      chan := s.chan.setQueue source target rest } := by
  have arrived : message ∈ s.chan source target := by
    rw [head]
    exact List.mem_cons_self
  have fits := owned.everywhere.messages source target message arrived
  refine ⟨?_, setProc_forall wave.takes ?_, setProc_forall wave.tells ?_⟩
  · cases message with
    | bcastCount o cnt =>
        refine wave.gathers.hearReceive (by rfl) fits.2.2.1 head rfl (fun q _ => ?_) fun q _ => ?_
        · rw [isPc]
          rfl
        · rw [isPc]
          rfl
    | gatherCount cnt reply =>
        refine wave.gathers.keepReceive (by rfl) head rfl (fun _ _ => rfl) fun q _ => ?_
        rw [isPc]
        cases reply with
        | true => exact (Nat.zero_add _).symm
        | false => rfl
    | _ =>
        refine wave.gathers.keepReceive (by rfl) head rfl (fun _ _ => rfl) fun q _ => ?_
        rw [isPc]
        rfl
  · cases message with
    | bcastCount o cnt =>
        obtain ⟨unheard, -, -⟩ := Sound.of_down wave.gathers fits.2.2.1
          (s.flow_pos_of_mem arrived _ (by simp [countPhase]))
        refine (wave.takes target).hear unheard (fun _ => ?_) rfl ⟨by rw [isPc]; rfl, rfl⟩
          ⟨by rw [isPc]; rfl, rfl⟩ ⟨by rw [isPc]; rfl, rfl⟩ (by rw [isPc]; rfl) rfl rfl
        refine wave.gathers.collected_of_unsent (Bool.eq_false_iff.mpr fun isSent => ?_)
        exact Bool.false_ne_true (unheard.symm.trans (wave.gathers.sent target isSent))
    | _ =>
        refine (wave.takes target).quiet rfl ?_ ?_ rfl rfl
        all_goals rw [isPc]
        · rfl
        · exact fun _ => rfl
  · refine (wave.tells target).change rfl ⟨id, id⟩ ?_ ?_
    · cases message <;> trivial
    · rw [Log.hear_sent]
      exact .inl

end CountWave

theorem countWave_of_reached (natural : 0 ≤ count)
    (reached : Reached (system owner count) (PutsInRange owner count) s) : CountWave owner s := by
  refine reached.invariant (CountWave owner) ?_ ?_
  · rintro state rfl
    exact ⟨Phase.gathers_start rfl (fun _ _ => rfl) fun _ _ => rfl,
      fun pid => takes_start rfl rfl rfl rfl,
      fun pid => ⟨fun _ => trivial, fun impossible => nomatch impossible⟩⟩
  · intro state action next before wave allowed stepped
    have owned := owned_of_reached (puts_of_inRange before)
    cases taken_of_step stepped with
    | @putItem pid thread val isPc =>
        exact wave.update isPc rfl rfl rfl (fun _ => rfl) rfl (fun _ => rfl) trivial
    | @putCount thread isPc =>
        refine wave.update isPc rfl rfl rfl ?_ ?_ ?_ ?_
        all_goals split
        · exact fun _ => rfl
        · exact fun _ => rfl
        · exact rfl
        · exact rfl
        · exact fun _ => rfl
        · exact fun _ => rfl
        · trivial
        · trivial
    | receive isPc head => exact wave.receive owned isPc head
    | run moved =>
        exact wave.run natural (roles_of_reached (puts_of_inRange before)) owned allowed.2 moved

end Runs

end CnC.Reduce
