import CnC.Reduce.ValuePhase

/-!
# The way to the value

The owner puts the value when it has counted all items itself before it broadcasts the count, or
when it has collected the values of its children.
-/

namespace CnC.Reduce

open Convergecast Network Transition

variable {n : Nat} {Thread α : Type} {owner me : Fin n} {count : Int}

def Pc.opens : Pc n α → Bool
  | doneOwner _ | bcastOwner _ _ | flagSwitch | flagCounts => true
  | _ => false

def Pc.ends : Pc n α → Bool
  | valueOwner | valueStatus | valueN | valueReduced _ | putReduced false | putN false _
  | putLock false | putStatus false | putOut => true
  | _ => false

/-- The count has been put, and its broadcast has begun if there is one. -/
structure Log.Announced (count : Int) (log : Log n α) : Prop where
  put : log.put = true
  heard : count ≠ -1 → log.counts.heard = true

structure Process.Opens (owner : Fin n) (count : Int) (process : Process n Thread α) : Prop where
  pcs : ∀ thread, (process.pcs thread).opens = true → process.log.Announced count
  known : process.tls.owner = some owner → process.log.Announced count
  counted : process.log.Announced count ∨ process.tls.nreduced = process.log.counted

section Steps

variable [DecidableEq Thread] {process next : Process n Thread α} {thread : Option Thread}
  {pc : Pc n α}

theorem Process.Opens.change (opens : process.Opens owner count)
    (pcs : next.pcs = (process.goto thread pc).pcs)
    (announced : process.log.Announced count → next.log.Announced count)
    (opened : pc.opens = true → next.log.Announced count)
    (known : next.tls.owner = some owner →
      process.tls.owner = some owner ∨ next.log.Announced count)
    (counted : next.log.Announced count ∨ next.tls.nreduced + process.log.counted =
      process.tls.nreduced + next.log.counted) : next.Opens owner count := by
  refine ⟨fun other isOpen => ?_, fun isOwner => ?_, ?_⟩
  · rw [pcs, pcs_goto] at isOpen
    split at isOpen
    · exact opened isOpen
    · exact announced (opens.pcs other isOpen)
  · exact (known isOwner).elim (fun before => announced (opens.known before)) id
  · rcases opens.counted with before | before
    · exact .inl (announced before)
    · exact counted.imp_right fun same => by omega

omit [DecidableEq Thread] in
theorem Plain.opens {pc' : Pc n α} (moved : Plain me process pc pc') (opens : pc'.opens = true) :
    pc = .itemCounts ∨ ∃ loaded, pc = .gatherTest loaded := by
  cases moved with
  | itemDone => exact .inl rfl
  | gatherAll => exact .inr ⟨_, rfl⟩
  | _ => cases opens

variable [Mul α] [One α] [Inhabited α] {sent : List (Fin n × Msg n α)} {stage : Stage}

theorem Next.announcedLog (moved : Next me count process thread next sent)
    (announced : process.log.Announced count) : next.log.Announced count := by
  obtain ⟨put, heard⟩ := announced
  refine ⟨moved.put.trans put, fun notFlag => ?_⟩
  have heard := heard notFlag
  cases moved with
  | @putFewer fromCount | @putUnlock fromCount =>
      cases fromCount with
      | true => rfl
      | false => exact heard
  | gatherRelease => exact (Log.gather_heard ..).trans heard
  | _ => exact heard

variable [Fintype Thread]

omit [DecidableEq Thread] [Mul α] [One α] [Inhabited α] in
theorem put_of_counting (announced : process.announced ≤ process.log.put.toNat)
    (isCounting : (process.pcs thread).counting = 1) : process.log.put = true := by
  have some_ := process.le_sum Pc.counting_nonneg thread
  unfold Process.announced at announced
  have bound := Bool.toNat_le process.log.put
  rw [← Bool.toNat_eq_one]
  omega

theorem Process.Opens.moved (opens : process.Opens owner count) (isOwner : me = owner)
    (owned : process.Owned owner count stage me) (sound : stage.Sound)
    (isStage : process.stage owner count = stage)
    (announced : process.announced ≤ process.log.put.toNat)
    (moved : Next me count process thread next sent) : next.Opens owner count := by
  have fits := owned.pcs thread
  have before := opens.pcs thread
  have later : process.log.Announced count → next.log.Announced count := moved.announcedLog
  have known (opened : stage.opened) : process.log.Announced count := by
    subst isStage
    exact opens.known opened
  cases moved with
  | plain isPlain =>
      refine opens.change rfl later (fun isOpen => ?_) .inl (.inr rfl)
      obtain isPc | ⟨loaded, isPc⟩ := isPlain.opens isOpen
      · rw [isPc] at fits
        exact known fits.2
      · rw [isPc] at fits
        exact known fits.2.1
  | itemCount isPc =>
      refine opens.change rfl later (fun isOpen => (nomatch isOpen)) .inl (.inr ?_)
      change process.tls.nreduced + 1 + process.log.counted =
        process.tls.nreduced + ((process.log.counted + 1 : Nat) : Int)
      omega
  | exchange isPc =>
      rw [isPc] at fits
      exact absurd isOwner fits.1
  | learn learns =>
      have announced : process.log.Announced count := by
        refine before ?_
        cases isPc : process.pcs thread <;> rw [isPc] at learns <;> cases learns <;> rfl
      exact opens.change rfl later (fun _ => later announced) (fun _ => .inr (later announced))
        (.inr rfl)
  | guard guards =>
      refine opens.change rfl later (fun isOpen => ?_) .inl (.inr rfl)
      cases isPc : process.pcs thread <;> rw [isPc] at guards <;> cases guards <;> cases isOpen
  | store stores =>
      refine opens.change rfl later (fun isOpen => ?_) .inl (.inr rfl)
      cases isPc : process.pcs thread <;> rw [isPc] at stores <;> cases stores <;> cases isOpen
  | raise raises =>
      refine opens.change rfl later (fun isOpen => later (before ?_)) .inl (.inr rfl)
      cases isPc : process.pcs thread <;> rw [isPc] at raises <;> cases raises
      · rfl
      · cases isOpen
  | await awaits =>
      refine opens.change rfl later (fun isOpen => later (before ?_)) .inl (.inr rfl)
      cases isPc : process.pcs thread <;> rw [isPc] at awaits <;> cases awaits
      · rfl
      all_goals cases isOpen
  | gatherAdd isPc =>
      rw [isPc] at fits
      exact opens.change rfl later (fun isOpen => (nomatch isOpen)) .inl (.inl (known fits.1))
  | valueReduced isPc =>
      rw [isPc] at fits
      exact opens.change rfl later (fun isOpen => (nomatch isOpen)) .inl
        (.inl (known (sound.opened fits.2.1)))
  | subValue isPc =>
      refine opens.change rfl later (fun isOpen => ?_) .inl (.inr rfl)
      split at isOpen <;> cases isOpen
  | gatherRelease isPc =>
      refine opens.change rfl later (fun isOpen => ?_) .inl (.inr ?_)
      · split at isOpen <;> cases isOpen
      · rw [Log.gather_counted]
  | @putFewer fromCount loaded isPc fewer =>
      refine opens.change (notPut_pcs ..) later (fun isOpen => ?_) ?_ (.inr ?_)
      · cases fromCount with
        | true =>
            have isPut := put_of_counting announced
              (show (process.pcs thread).counting = 1 by rw [isPc]; rfl)
            exact ⟨isPut, fun _ => rfl⟩
        | false => cases isOpen
      · rw [notPut_tls]
        exact .inl
      · rw [notPut_tls, notPut_counted]
  | @putUnlock fromCount isPc =>
      refine opens.change (notPut_pcs ..) later (fun isOpen => ?_) .inl (.inr ?_)
      · cases fromCount with
        | true =>
            have isPut := put_of_counting announced
              (show (process.pcs thread).counting = 1 by rw [isPc]; rfl)
            exact ⟨isPut, fun _ => rfl⟩
        | false => cases isOpen
      · rw [notPut_counted]
  | _ isPc =>
      exact opens.change rfl later (fun isOpen => (nomatch isOpen)) .inl (.inr rfl)

/-- All items have been counted by the owner, which does not broadcast the count, or it has
collected the values of its children. -/
inductive Process.Ready (owner : Fin n) (count : Int) (process : Process n Thread α) : Prop
  | alone : process.log.fired = 0 → count ≠ -1 → process.log.put = true →
      process.announced ≤ 0 → count ≤ process.log.counted → process.Ready owner count
  | gathered : 0 < process.log.fired →
      process.log.values.collected.card = (bcast owner owner).length → process.Ready owner count

omit [Fintype Thread] in
theorem Next.fired (moved : Next me count process thread next sent) :
    next.log.fired = process.log.fired ∨
      process.pcs thread = .doneSwitch me ∧ 0 < next.log.fired := by
  cases moved with
  | fire isPc => exact .inr ⟨isPc, Nat.succ_pos _⟩
  | putFewer | putUnlock => exact .inl (notPut_fired ..)
  | gatherRelease => exact .inl (Log.gather_fired ..)
  | _ => exact .inl rfl

omit [Fintype Thread] in
theorem Next.counted_le (moved : Next me count process thread next sent) :
    process.log.counted ≤ next.log.counted := by
  cases moved with
  | itemCount => exact Nat.le_succ _
  | putFewer | putUnlock => exact (notPut_counted ..).ge
  | gatherRelease => exact (Log.gather_counted ..).ge
  | _ => exact le_rfl

omit [Fintype Thread] in
theorem Next.collected_subset (moved : Next me count process thread next sent) :
    process.log.values.collected ⊆ next.log.values.collected := by
  cases moved with
  | subValue => exact Finset.subset_union_left
  | putFewer | putUnlock => rw [notPut_values]
  | gatherRelease => rw [Log.gather_values]
  | _ => exact Finset.Subset.refl _

theorem Process.Ready.moved (ready : process.Ready owner count)
    (opens : process.Opens owner count) (owned : process.Owned owner count stage me)
    (isStage : process.stage owner count = stage)
    (few : next.log.values.collected.card ≤ (bcast owner owner).length)
    (moved : Next me count process thread next sent) : next.Ready owner count := by
  have fits := owned.pcs thread
  cases ready with
  | alone unfired notFlag isPut unannounced all =>
      rcases moved.fired with same | ⟨isPc, -⟩
      · exact .alone (same.trans unfired) notFlag (moved.put.trans isPut)
          (moved.announced.trans unannounced) (all.trans (Int.ofNat_le.mpr moved.counted_le))
      · rw [isPc] at fits
        subst isStage
        have heard := (opens.known fits.2.1).heard notFlag
        have nonneg := process.sum_nonneg Pc.counting_nonneg
        unfold Process.announced at unannounced
        rw [heard, Bool.toNat_true] at unannounced
        omega
  | gathered fired all =>
      refine .gathered ?_ (few.antisymm (all.ge.trans (Finset.card_le_card moved.collected_subset)))
      rcases moved.fired with same | ⟨-, fired'⟩
      · rwa [same]
      · exact fired'

omit [DecidableEq Thread] [Fintype Thread] [Mul α] [One α] [Inhabited α] in
theorem Plain.ends {pc' : Pc n α} (isPlain : Plain me process pc pc') (ends : pc'.ends = true) :
    pc.ends = true ∨ pc = .putStatus true ∧ pc' = .putOut := by
  cases isPlain with
  | @putReduced fromCount | @putAll fromCount =>
      cases fromCount with
      | true => cases ends
      | false => exact .inl rfl
  | @putFirst fromCount =>
      cases fromCount with
      | true => exact .inr ⟨rfl, rfl⟩
      | false => exact .inl rfl
  | valueOwn | valueFinished | valueN => exact .inl rfl
  | _ => cases ends

omit [Fintype Thread] in
theorem Next.ends (moved : Next me count process thread next sent)
    (ends : (next.pcs thread).ends = true) :
    (process.pcs thread).ends = true ∨
      (∃ source, process.pcs thread = .subValue source ∧ next.tls.nValues = 0) ∨
      process.pcs thread = .putStatus true ∧ next = process.goto thread .putOut := by
  cases moved with
  | plain isPlain =>
      rw [pcs_goto, if_pos rfl] at ends
      refine (isPlain.ends ends).imp_right fun direct => .inr ⟨direct.1, ?_⟩
      rw [direct.2]
  | learn learns =>
      change ((process.goto thread _).pcs thread).ends = true at ends
      rw [pcs_goto, if_pos rfl] at ends
      cases isPc : process.pcs thread <;> rw [isPc] at learns <;> cases learns <;> cases ends
  | guard guards =>
      change ((process.goto thread _).pcs thread).ends = true at ends
      rw [pcs_goto, if_pos rfl] at ends
      cases isPc : process.pcs thread <;> rw [isPc] at guards <;> cases guards <;> cases ends
  | store stores =>
      change ((process.goto thread _).pcs thread).ends = true at ends
      rw [pcs_goto, if_pos rfl] at ends
      cases isPc : process.pcs thread <;> rw [isPc] at stores <;> cases stores <;> cases ends
  | raise raises =>
      change ((process.goto thread _).pcs thread).ends = true at ends
      rw [pcs_goto, if_pos rfl] at ends
      cases isPc : process.pcs thread <;> rw [isPc] at raises <;> cases raises <;> cases ends
  | await awaits =>
      change ((process.goto thread _).pcs thread).ends = true at ends
      rw [pcs_goto, if_pos rfl] at ends
      cases isPc : process.pcs thread <;> rw [isPc] at awaits <;> cases awaits <;> cases ends
  | exchange | gatherRelease =>
      change ((process.goto thread _).pcs thread).ends = true at ends
      rw [pcs_goto, if_pos rfl] at ends
      split at ends <;> cases ends
  | @subValue source isPc =>
      change ((process.goto thread _).pcs thread).ends = true at ends
      rw [pcs_goto, if_pos rfl] at ends
      split at ends
      · rename_i last
        exact .inr (.inl ⟨source, isPc, by simp [last]⟩)
      · cases ends
  | valueReduced isPc =>
      rw [isPc]
      exact .inl rfl
  | @putLock fromCount isPc unlocked =>
      change ((process.goto thread _).pcs thread).ends = true at ends
      rw [pcs_goto, if_pos rfl] at ends
      cases fromCount with
      | true => cases ends
      | false =>
          rw [isPc]
          exact .inl rfl
  | putFewer | putUnlock =>
      rw [show Process.pcs _ = _ from notPut_pcs .., pcs_goto, if_pos rfl] at ends
      split at ends <;> cases ends
  | _ =>
      change ((process.goto thread _).pcs thread).ends = true at ends
      rw [pcs_goto, if_pos rfl] at ends
      cases ends

omit [DecidableEq Thread] [Mul α] [One α] [Inhabited α] in
theorem Process.TakesValue.all (takes : process.TakesValue owner me)
    (few : process.log.values.collected.card ≤ (bcast owner me).length)
    (heard : process.log.values.heard = true) (isZero : process.tls.nValues = 0) :
    process.log.values.collected.card = (bcast owner me).length := by
  have two := length_bcast_le owner me
  have nonneg : 0 ≤ process.sum ((valuePhase : Phase n Thread α).bias (bcast owner me).length) := by
    refine process.sum_nonneg fun pc => ?_
    simp only [valuePhase]
    split <;> omega
  have atLeast : _ ≤ process.tls.nValues + (process.log.values.collected.card : Int) :=
    takes.atLeast trivial heard (takes.isOpen isZero)
  omega

def Process.Ends (owner : Fin n) (count : Int) (process : Process n Thread α) : Prop :=
  ∀ thread, (process.pcs thread).ends = true → process.Ready owner count

omit [Mul α] [One α] [Inhabited α] in
theorem Process.Opens.direct (opens : process.Opens owner count)
    (announced : process.announced ≤ process.log.put.toNat)
    (unopened : 0 < process.log.fired → process.log.Announced count) (notFlag : count ≠ -1)
    (all : count ≤ process.tls.nreduced) (isPc : process.pcs thread = .putStatus true) :
    (process.goto thread .putOut).Ready owner count := by
  have isCounting : (process.pcs thread).counting = 1 := by rw [isPc]; rfl
  have isPut := put_of_counting announced isCounting
  rw [isPut, Bool.toNat_true] at announced
  have unheard := unheard_of_counting announced isCounting
  have notAnnounced : ¬ process.log.Announced count := fun isAnnounced =>
    Bool.false_ne_true (unheard.symm.trans (isAnnounced.heard notFlag))
  refine .alone ?_ notFlag isPut ?_ ?_
  · by_contra fired
    exact notAnnounced (unopened (Nat.pos_of_ne_zero fired))
  · have sum := Process.sum_goto (rfl : (process.goto thread .putOut).pcs = _) Pc.counting
    unfold Process.announced at announced ⊢
    rw [sum, isCounting]
    change (process.log.counts.heard.toNat : Int) + (_ - 1 + 0) ≤ 0
    omega
  · exact all.trans_eq (opens.counted.resolve_left notAnnounced)

theorem Process.Ends.moved (ends : process.Ends owner count) (isOwner : me = owner)
    (opens : process.Opens owner count) (owned : process.Owned owner count stage me)
    (sound : stage.Sound) (isStage : process.stage owner count = stage)
    (announced : process.announced ≤ process.log.put.toNat)
    (noted : count ≠ -1 → (process.pcs thread).Noted count process.tls.nreduced)
    (takes : next.TakesValue owner me) (fires : next.Fires owner me)
    (few : next.log.values.collected.card ≤ (bcast owner me).length)
    (moved : Next me count process thread next sent) : next.Ends owner count := by
  intro other isEnd
  have fits := owned.pcs thread
  subst isOwner
  by_cases same : other = thread
  · subst same
    rcases moved.ends isEnd with before | ⟨source, isPc, isZero⟩ | ⟨isPc, rfl⟩
    · exact (ends other before).moved opens owned isStage few moved
    · have fired : 0 < next.log.fired := by
        subst isStage
        rw [isPc] at fits
        have before : 0 < process.log.fired := by
          cases source with
          | none => exact fits
          | some source => exact fits.1
        rcases moved.fired with same | ⟨-, fired⟩
        · rwa [same]
        · exact fired
      have heard : next.log.values.heard = true := by
        have isFired := fires rfl
        have bound := Bool.toNat_le next.log.values.heard
        rw [← Bool.toNat_eq_one]
        omega
      exact .gathered fired (takes.all few heard isZero)
    · rw [isPc] at fits noted
      have notFlag : count ≠ -1 := fits.2.2
      subst isStage
      exact opens.direct announced (fun fired => opens.known (sound.opened fired)) notFlag
        (noted notFlag) isPc
  · rw [moved.pcs_other same] at isEnd
    exact (ends other isEnd).moved opens owned isStage few moved

/-- No item is being counted. -/
def Process.AllCounted (process : Process n Thread α) : Prop :=
  ∀ thread, (process.pcs thread).uncounted = 0

omit [Mul α] [One α] [Inhabited α] [Fintype Thread] in
theorem Process.AllCounted.goto (all : process.AllCounted) (counted : pc.uncounted = 0)
    (pcs : next.pcs = (process.goto thread pc).pcs) : next.AllCounted := by
  intro other
  rw [pcs, pcs_goto]
  split
  · exact counted
  · exact all other

omit [Fintype Thread] in
theorem Next.uncounted (moved : Next me count process thread next sent)
    (none : (process.pcs thread).uncounted = 0) : (next.pcs thread).uncounted = 0 := by
  cases moved with
  | plain isPlain =>
      rw [pcs_goto, if_pos rfl]
      exact isPlain.counts.2.1
  | addItem isPc =>
      rw [isPc] at none
      cases none
  | learn learns =>
      change ((process.goto thread _).pcs thread).uncounted = 0
      rw [pcs_goto, if_pos rfl]
      cases isPc : process.pcs thread <;> rw [isPc] at learns <;> cases learns <;> rfl
  | guard guards =>
      change ((process.goto thread _).pcs thread).uncounted = 0
      rw [pcs_goto, if_pos rfl]
      cases isPc : process.pcs thread <;> rw [isPc] at guards <;> cases guards <;> rfl
  | store stores =>
      change ((process.goto thread _).pcs thread).uncounted = 0
      rw [pcs_goto, if_pos rfl]
      cases isPc : process.pcs thread <;> rw [isPc] at stores <;> cases stores <;> rfl
  | raise raises =>
      change ((process.goto thread _).pcs thread).uncounted = 0
      rw [pcs_goto, if_pos rfl]
      cases isPc : process.pcs thread <;> rw [isPc] at raises <;> cases raises <;> rfl
  | await awaits =>
      change ((process.goto thread _).pcs thread).uncounted = 0
      rw [pcs_goto, if_pos rfl]
      cases isPc : process.pcs thread <;> rw [isPc] at awaits <;> cases awaits <;> rfl
  | exchange | gatherRelease | subValue =>
      change ((process.goto thread _).pcs thread).uncounted = 0
      rw [pcs_goto, if_pos rfl]
      split <;> rfl
  | putFewer | putUnlock =>
      rw [show Process.pcs _ = _ from notPut_pcs .., pcs_goto, if_pos rfl]
      split <;> rfl
  | _ =>
      change ((process.goto thread _).pcs thread).uncounted = 0
      rw [pcs_goto, if_pos rfl]
      rfl

omit [Fintype Thread] in
theorem Process.AllCounted.moved (all : process.AllCounted)
    (moved : Next me count process thread next sent) : next.AllCounted := by
  intro other
  by_cases same : other = thread
  · exact same ▸ moved.uncounted (all thread)
  · rw [moved.pcs_other same]
    exact all other

def Process.Ending (owner : Fin n) (count : Int) (me : Fin n) (process : Process n Thread α) :
    Prop :=
  me = owner → process.Opens owner count ∧ process.Ends owner count

omit [Mul α] [One α] [Inhabited α] in
theorem Process.Ending.begin (ending : process.Ending owner count me)
    (isPc : process.pcs thread = .idle) (pcs : next.pcs = (process.goto thread pc).pcs)
    (tls : next.tls = process.tls)
    (same : me = owner → next.log.put = process.log.put ∧
      next.log.counts.heard = process.log.counts.heard ∧
      next.log.counted = process.log.counted ∧ next.log.fired = process.log.fired ∧
      next.log.values = process.log.values)
    (fresh : me = owner → pc.opens = false ∧ pc.ends = false ∧ pc.counting = 0) :
    next.Ending owner count me := by
  intro isOwner
  obtain ⟨opens, ends⟩ := ending isOwner
  obtain ⟨put, heard, counted, fired, values⟩ := same isOwner
  obtain ⟨notOpen, notEnd, notCounting⟩ := fresh isOwner
  have announced (before : process.log.Announced count) : next.log.Announced count :=
    ⟨put.trans before.put, fun notFlag => heard.trans (before.heard notFlag)⟩
  refine ⟨opens.change pcs announced (fun isOpen => ?_) (fun isOwner => ?_) (.inr ?_),
    fun other isEnd => ?_⟩
  · exact absurd (notOpen.symm.trans isOpen) Bool.false_ne_true
  · exact .inl (tls ▸ isOwner)
  · rw [tls, counted]
  · rw [pcs, pcs_goto] at isEnd
    split at isEnd
    · exact absurd (notEnd.symm.trans isEnd) Bool.false_ne_true
    · cases ends other isEnd with
      | alone unfired notFlag isPut unannounced all =>
          refine .alone (fired.trans unfired) notFlag (put.trans isPut)
            (le_trans (Process.announced_le pcs heard ?_) unannounced) (counted ▸ all)
          rw [notCounting, isPc]
          exact le_rfl
      | gathered isFired all => exact .gathered (fired ▸ isFired) (values ▸ all)

end Steps

section Runs

variable [Fintype Thread] [DecidableEq Thread] [Mul α] [One α] [Inhabited α] {s : State n Thread α}

theorem ending_of_reached (isCount : count = -1 ∨ 0 ≤ count)
    (reached : Reached (system owner count) (Puts owner count) s) (pid : Fin n) :
    (s.proc pid).Ending owner count pid := by
  revert pid
  refine reached.invariant (fun state => ∀ pid, (state.proc pid).Ending owner count pid) ?_ ?_
  · rintro state rfl pid -
    exact ⟨⟨fun _ isOpen => (nomatch isOpen), fun isOwner => (nomatch isOwner), .inr rfl⟩,
      fun _ isEnd => (nomatch isEnd)⟩
  · intro state action next before ending allowed stepped
    have owned := owned_of_reached before
    have roles := roles_of_reached before
    have values := valueWave_of_reached before
    cases taken_of_step stepped with
    | @putItem pid thread val isPc =>
        exact setProc_forall ending ((ending pid).begin isPc rfl rfl
          (fun _ => ⟨rfl, rfl, rfl, rfl, rfl⟩) fun _ => ⟨rfl, rfl, rfl⟩)
    | @putCount thread isPc =>
        refine setProc_forall ending fun _ => ?_
        obtain ⟨opens, ends⟩ := ending owner rfl
        have unput : ¬ (state.proc owner).log.Announced count := fun announced =>
          Bool.false_ne_true (allowed.1.symm.trans announced.put)
        refine ⟨opens.change rfl (fun announced => absurd announced unput) (fun isOpen => ?_) .inl
          (.inr rfl), fun other isEnd => ?_⟩
        · split at isOpen
          · rename_i isFlag
            exact ⟨rfl, fun notFlag => absurd isFlag notFlag⟩
          · cases isOpen
        · change Pc.ends (((state.proc owner).goto thread _).pcs other) = true at isEnd
          rw [pcs_goto] at isEnd
          split at isEnd
          · split at isEnd <;> cases isEnd
          · refine absurd ?_ unput
            cases ends other isEnd with
            | alone _ _ isPut =>
                exact absurd (allowed.1.symm.trans isPut) Bool.false_ne_true
            | gathered fired => exact opens.known (owned.sound.opened fired)
    | @receive source target message rest isPc head =>
        have fits := owned.everywhere.messages source target message
          (head ▸ List.mem_cons_self)
        refine setProc_forall ending ((ending target).begin isPc rfl rfl (fun isOwner => ?_)
          fun isOwner => ?_)
        · cases message with
          | bcastCount => exact absurd isOwner fits.2.2.1
          | _ => exact ⟨rfl, rfl, rfl, rfl, rfl⟩
        · cases message with
          | bcastCount => exact absurd isOwner fits.2.2.1
          | done => exact absurd isOwner fits.2.1
          | _ => exact ⟨rfl, rfl, rfl⟩
    | @run pid thread process sent moved =>
        refine setProc_forall ending fun isOwner => ?_
        obtain ⟨opens, ends⟩ := ending pid isOwner
        have ofPid := owned.everywhere.processes pid
        have isStage : (state.proc pid).stage owner count = state.stage owner count :=
          Owned.isStage state pid isOwner
        have announced := roles.announced pid isOwner
        have later := values.run roles owned (once_of_reached before pid) moved
        have takes := later.takes pid
        have fires := later.fires pid
        have few := later.gathers.collected_le pid
        simp only [State.setProc, Function.update_self] at takes fires few
        refine ⟨opens.moved isOwner ofPid owned.sound isStage announced moved,
          ends.moved isOwner opens ofPid owned.sound isStage announced (fun notFlag => ?_) takes
            fires few moved⟩
        have counting := counting_of_reached (isCount.resolve_left notFlag) before
        exact (counting.everywhere.processes pid).noted isOwner thread

omit [Fintype Thread] [DecidableEq Thread] [Mul α] [One α] [Inhabited α] in
theorem field_setProc {β : Type} (field : Process n Thread α → β) {pid : Fin n}
    {process : Process n Thread α} (same : field process = field (s.proc pid)) (other : Fin n) :
    field ((s.setProc pid process).proc other) = field (s.proc other) := by
  by_cases isPid : other = pid
  · subst isPid
    simpa [State.setProc] using same
  · simp [State.setProc, isPid]

omit [Fintype Thread] in
/-- With the count -1, no item is being counted when the count has been put. -/
theorem allCounted_of_put (isFlag : count = -1)
    (reached : Reached (system owner count) (Puts owner count) s)
    (isPut : (s.proc owner).log.put = true) (pid : Fin n) : (s.proc pid).AllCounted := by
  revert pid isPut
  refine reached.invariant (fun state => (state.proc owner).log.put = true → ∀ pid,
    (state.proc pid).AllCounted) ?_ ?_
  · rintro state rfl - pid thread
    rfl
  · intro state action next before all allowed stepped isPut
    cases taken_of_step stepped with
    | @putItem pid thread val isPc =>
        simp only [Puts, if_pos isFlag] at allowed
        have before : (state.proc owner).log.put = true :=
          (field_setProc (fun process => process.log.put) (by rfl) owner).symm.trans isPut
        exact absurd (allowed.symm.trans before) Bool.false_ne_true
    | @putCount thread isPc =>
        have idle (pid : Fin n) : (state.proc pid).AllCounted := fun other => by
          rw [allowed.2 isFlag]
          rfl
        refine setProc_forall idle ((idle owner).goto ?_ (by rfl))
        split <;> rfl
    | @receive source target message rest isPc head =>
        have before := all ((field_setProc (fun process => process.log.put) (Log.hear_put ..)
          owner).symm.trans isPut)
        refine setProc_forall before ((before target).goto ?_ (by rfl))
        cases message <;> rfl
    | @run pid thread process sent moved =>
        have before := all
          ((field_setProc (fun process => process.log.put) moved.put owner).symm.trans isPut)
        exact setProc_forall before ((before pid).moved moved)

/-- All items have been put and counted. -/
def State.Settled (owner : Fin n) (count : Int) (s : State n Thread α) : Prop :=
  if count = -1 then (s.proc owner).log.put = true else count ≤ s.counted

structure Log.Le (log log' : Log n α) : Prop where
  put : log.put = true → log'.put = true
  counted : log.counted ≤ log'.counted
  fired : 0 < log.fired → 0 < log'.fired

omit [Fintype Thread] [DecidableEq Thread] [Mul α] [One α] [Inhabited α] in
theorem le_setProc {pid : Fin n} {process : Process n Thread α}
    (le : (s.proc pid).log.Le process.log) (other : Fin n) :
    (s.proc other).log.Le ((s.setProc pid process).proc other).log := by
  by_cases same : other = pid
  · subst same
    simpa [State.setProc] using le
  · simpa [State.setProc, same] using (⟨id, le_rfl, id⟩ : (s.proc other).log.Le (s.proc other).log)

omit [Fintype Thread] in
theorem le_of_taken {next : State n Thread α} {action : Action n Thread α}
    (taken : Taken owner count s action next) :
    ∀ pid, (s.proc pid).log.Le (next.proc pid).log := by
  cases taken with
  | putItem => exact le_setProc ⟨id, le_rfl, id⟩
  | putCount => exact le_setProc ⟨fun _ => rfl, le_rfl, id⟩
  | receive =>
      refine le_setProc ⟨(Log.hear_put ..).trans, (Log.hear_counted ..).ge, ?_⟩
      rw [Log.hear_fired]
      exact id
  | run moved =>
      refine le_setProc ⟨moved.put.trans, moved.counted_le, fun fired => ?_⟩
      rcases moved.fired with same | ⟨-, fired'⟩
      · rwa [same]
      · exact fired'

namespace State.Settled

theorem of_fired (isCount : count = -1 ∨ 0 ≤ count)
    (reached : Reached (system owner count) (Puts owner count) s)
    (fired : 0 < (s.proc owner).log.fired) : s.Settled owner count := by
  unfold State.Settled
  split
  · have owned := owned_of_reached reached
    exact ((ending_of_reached isCount reached owner rfl).1.known (owned.sound.opened fired)).put
  · rename_i notFlag
    have counting := counting_of_reached (isCount.resolve_left notFlag) reached
    exact (counting.all (.inl fired)).2.1.ge

theorem of_ready (isCount : count = -1 ∨ 0 ≤ count)
    (reached : Reached (system owner count) (Puts owner count) s)
    (ready : (s.proc owner).Ready owner count) : s.Settled owner count := by
  cases ready with
  | alone _ notFlag _ _ all =>
      have atMost : (s.proc owner).log.counted ≤ s.counted :=
        Finset.single_le_sum (f := fun pid => (s.proc pid).log.counted) (fun _ _ => Nat.zero_le _)
          (Finset.mem_univ owner)
      rw [State.Settled, if_neg notFlag]
      exact all.trans (Int.ofNat_le.mpr atMost)
  | gathered fired _ => exact of_fired isCount reached fired

variable (settled : s.Settled owner count)

include settled

omit [DecidableEq Thread] [Mul α] [One α] [Inhabited α] in
theorem counted_eq (notFlag : count ≠ -1) (counting : Counting owner count s) (pid : Fin n) :
    (s.proc pid).log.counted = (s.proc pid).log.items.length := by
  rw [State.Settled, if_neg notFlag] at settled
  have atMost := counting.atMost
  have counted := counting.counted_le
  refine (Finset.sum_eq_sum_iff_of_le fun pid _ => counting.counted_le_items pid).mp ?_ pid
    (Finset.mem_univ pid)
  unfold State.counted State.items at *
  omega

theorem allCounted (isCount : count = -1 ∨ 0 ≤ count)
    (reached : Reached (system owner count) (Puts owner count) s) (pid : Fin n) :
    (s.proc pid).AllCounted := by
  by_cases isFlag : count = -1
  · rw [State.Settled, if_pos isFlag] at settled
    exact allCounted_of_put isFlag reached settled pid
  · have counting := counting_of_reached (isCount.resolve_left isFlag) reached
    have same := settled.counted_eq isFlag counting pid
    have items := (counting.everywhere.processes pid).items
    intro thread
    refine (Finset.sum_eq_zero_iff_of_nonneg fun thread _ => Pc.uncounted_nonneg _).mp ?_ thread
      (Finset.mem_univ thread)
    omega

theorem closed (isCount : count = -1 ∨ 0 ≤ count)
    (reached : Reached (system owner count) (Puts owner count) s) (pid : Fin n) (thread : Thread)
    (val : α) : ¬ Puts owner count s (.putItem pid thread val) := by
  by_cases isFlag : count = -1
  · rw [State.Settled, if_pos isFlag] at settled
    simp [Puts, isFlag, settled]
  · have counting := counting_of_reached (isCount.resolve_left isFlag) reached
    rw [State.Settled, if_neg isFlag] at settled
    have counted := counting.counted_le
    simp only [Puts, if_neg isFlag]
    omega

variable {next : State n Thread α} {action : Action n Thread α}

/-- From then on, the items stay as they are. -/
theorem items (isCount : count = -1 ∨ 0 ≤ count)
    (reached : Reached (system owner count) (Puts owner count) s)
    (allowed : Puts owner count s action) (taken : Taken owner count s action next) (pid : Fin n) :
    (next.proc pid).log.items = (s.proc pid).log.items := by
  cases taken with
  | putItem => exact (settled.closed isCount reached _ _ _ allowed).elim
  | putCount => exact field_setProc (fun process => process.log.items) (by rfl) pid
  | receive => exact field_setProc (fun process => process.log.items) (Log.hear_items ..) pid
  | run moved => exact field_setProc (fun process => process.log.items) moved.items pid

omit [Fintype Thread] in
theorem step (taken : Taken owner count s action next) : next.Settled owner count := by
  have later := le_of_taken taken
  unfold State.Settled at settled ⊢
  split
  · rename_i isFlag
    rw [if_pos isFlag] at settled
    exact (later owner).put settled
  · rename_i notFlag
    rw [if_neg notFlag] at settled
    exact settled.trans (Int.ofNat_le.mpr (Finset.sum_le_sum fun pid _ => (later pid).counted))

end State.Settled

end Runs

end CnC.Reduce
