import CnC.Reduce.Ends

/-!
# The value of a reduction

Every process multiplies the items which are put there with the values of its children in the
tree, so that the owner puts the product of all items.
-/

namespace CnC.Reduce

open Convergecast Network Transition

variable {n : Nat} {Thread α : Type} {owner me : Fin n} {count : Int}

/-- Which processes have sent their values, and which values. -/
structure Sent (n : Nat) (α : Type) where
  done : Fin n → Prop
  value : Fin n → α

structure Sent.Le (sent sent' : Sent n α) : Prop where
  done : ∀ q, sent.done q → sent'.done q
  value : ∀ q, sent.done q → sent'.value q = sent.value q

namespace Pc

def pending [One α] : Pc n α → α
  | addValue val none => val
  | _ => 1

/-- The thread has the value of the process which it says. -/
def Carries (sent : Sent n α) (me : Fin n) (added : Finset (Fin n)) : Pc n α → Prop
  | addValue val (some source) => sent.done source ∧ sent.value source = val
  | subValue (some source) => source ∈ added
  | valueSend val => sent.done me ∧ sent.value me = val
  | _ => True

theorem Carries.mono {pc : Pc n α} {sent sent' : Sent n α} {added added' : Finset (Fin n)}
    (carries : pc.Carries sent me added) (le : sent.Le sent') (more : added ⊆ added') :
    pc.Carries sent' me added' := by
  cases pc with
  | addValue val source =>
      cases source with
      | none => trivial
      | some source => exact ⟨le.done _ carries.1, (le.value _ carries.1).trans carries.2⟩
  | subValue source =>
      cases source with
      | none => trivial
      | some source => exact more carries
  | valueSend => exact ⟨le.done _ carries.1, (le.value _ carries.1).trans carries.2⟩
  | _ => trivial

end Pc

def Msg.Carries (sent : Sent n α) (source : Fin n) : Msg n α → Prop
  | .value val => sent.done source ∧ sent.value source = val
  | _ => True

theorem Msg.Carries.mono {message : Msg n α} {sent sent' : Sent n α} {source : Fin n}
    (carries : message.Carries sent source) (le : sent.Le sent') :
    message.Carries sent' source := by
  cases message with
  | value => exact ⟨le.done _ carries.1, (le.value _ carries.1).trans carries.2⟩
  | _ => trivial

variable [Fintype Thread] [CommMonoid α]

def Process.pending (process : Process n Thread α) : α :=
  ∏ thread, (process.pcs thread).pending

/-- The slots of a process hold its items and the values of the processes which it has added. -/
structure Process.Holds (owner : Fin n) (sent : Sent n α) (me : Fin n)
    (process : Process n Thread α) : Prop where
  nodup : process.tls.slots.keys.Nodup
  total : process.tls.slots.total (fun _ => true) * process.pending =
    process.log.items.prod * ∏ q ∈ process.log.added, sent.value q
  added : ∀ q ∈ process.log.added, Replies owner q me ∧ sent.done q ∧
    (q ∈ process.log.values.collected ∨ ∃ thread, process.pcs thread = .subValue (some q))
  collected : process.log.values.collected ⊆ process.log.added
  pcs : ∀ thread, (process.pcs thread).Carries sent me process.log.added

section Steps

variable {process next : Process n Thread α} {thread : Option Thread} {pc : Pc n α}
  {sent sent' : Sent n α}

theorem Process.Holds.mono (holds : process.Holds owner sent me) (le : sent.Le sent') :
    process.Holds owner sent' me := by
  refine ⟨holds.nodup, holds.total.trans ?_, fun q isAdded => ?_, holds.collected,
    fun thread => (holds.pcs thread).mono le (Finset.Subset.refl _)⟩
  · congr 1
    exact Finset.prod_congr rfl fun q isAdded => (le.value q (holds.added q isAdded).2.1).symm
  · exact (holds.added q isAdded).imp_right (And.imp_left (le.done q))

theorem Process.pending_eq_one (all : process.AllCounted) : process.pending = 1 := by
  refine Finset.prod_eq_one fun thread _ => ?_
  have none := all thread
  cases isPc : process.pcs thread with
  | addValue val source =>
      rw [isPc] at none
      cases source with
      | none => cases none
      | some source => rfl
  | _ => rfl

variable [DecidableEq Thread]

theorem Process.pending_goto (pcs : next.pcs = (process.goto thread pc).pcs) :
    next.pending * (process.pcs thread).pending = process.pending * pc.pending := by
  obtain ⟨others, before, after⟩ :=
    Combinable.prod_update (fun _ => Pc.pending) process.pcs thread
  have isNext : next.pending = pc.pending * others := by
    rw [Process.pending, pcs]
    exact after pc
  rw [isNext, Process.pending, before, mul_right_comm, mul_comm pc.pending, mul_right_comm]

omit [Fintype Thread] [CommMonoid α] in
theorem sub_goto {q : Fin n} (pcs : next.pcs = (process.goto thread pc).pcs)
    (notSub : process.pcs thread ≠ .subValue (some q))
    (taken : ∃ other, process.pcs other = .subValue (some q)) :
    ∃ other, next.pcs other = .subValue (some q) := by
  obtain ⟨other, isPc⟩ := taken
  refine ⟨other, ?_⟩
  rw [pcs, pcs_goto, if_neg]
  · exact isPc
  · rintro rfl
    exact notSub isPc

/-- A thread which neither adds a value nor has collected one moves. -/
theorem Process.Holds.keep (holds : process.Holds owner sent me)
    (pcs : next.pcs = (process.goto thread pc).pcs)
    (slots : next.tls.slots = process.tls.slots) (items : next.log.items = process.log.items)
    (added : next.log.added = process.log.added)
    (collected : next.log.values.collected = process.log.values.collected)
    (pending : pc.pending = (process.pcs thread).pending)
    (carries : pc.Carries sent me process.log.added)
    (notSub : ∀ q, process.pcs thread ≠ .subValue (some q)) : next.Holds owner sent me := by
  have samePending : next.pending = process.pending := by
    obtain ⟨others, before, after⟩ :=
      Combinable.prod_update (fun _ => Pc.pending) process.pcs thread
    rw [Process.pending, pcs, Process.pending, before, ← pending]
    exact after pc
  refine ⟨slots ▸ holds.nodup, ?_, fun q isAdded => ?_, ?_, fun other => ?_⟩
  · rw [slots, items, added, samePending]
    exact holds.total
  · rw [added] at isAdded
    rw [collected]
    exact (holds.added q isAdded).imp_right (And.imp_right (Or.imp_right
      (sub_goto pcs (notSub q))))
  · rw [collected, added]
    exact holds.collected
  · rw [pcs, pcs_goto, added]
    split
    · exact carries
    · exact holds.pcs other

variable [Inhabited α] {messages : List (Fin n × Msg n α)}

omit [Fintype Thread] in
theorem addValue_total (nodup : process.tls.slots.keys.Nodup) (thread : Option Thread)
    (val : α) :
    (addValue thread val process.tls.slots).keys.Nodup ∧
      (addValue thread val process.tls.slots).total (fun _ => true) =
        process.tls.slots.total (fun _ => true) * val := by
  refine ⟨?_, Combinable.total_add nodup thread val⟩
  rw [addValue, Combinable.keys_set]
  exact Combinable.nodup_make nodup thread

omit [Fintype Thread] [DecidableEq Thread] [Inhabited α] in
theorem Plain.pending {pc' : Pc n α} (isPlain : Plain me process pc pc') :
    pc.pending = 1 ∧ pc'.pending = 1 ∧ ∀ q, pc ≠ .subValue (some q) := by
  cases isPlain <;> exact ⟨rfl, rfl, nofun⟩

omit [Fintype Thread] [CommMonoid α] [DecidableEq Thread] [Inhabited α] in
theorem Plain.carries {pc' : Pc n α} (isPlain : Plain me process pc pc')
    (added : Finset (Fin n)) : pc'.Carries sent me added := by
  cases isPlain <;> trivial

theorem Process.Holds.addItem {val : α} (holds : process.Holds owner sent me)
    (isPc : process.pcs thread = .addValue val none) :
    Process.Holds owner sent me { process.goto thread .itemCount with
      tls := { process.tls with slots := Reduce.addValue thread val process.tls.slots } } := by
  have pcs : Process.pcs { process.goto thread .itemCount with
      tls := { process.tls with slots := Reduce.addValue thread val process.tls.slots } } =
      (process.goto thread .itemCount).pcs := rfl
  have slots := addValue_total holds.nodup thread val
  have pending := Process.pending_goto pcs
  refine ⟨slots.1, ?_, fun q isAdded => ?_, holds.collected, fun other => ?_⟩
  · rw [isPc] at pending
    refine Eq.trans ?_ holds.total
    rw [slots.2, mul_assoc, mul_comm val]
    exact congrArg _ (pending.trans (mul_one _))
  · exact (holds.added q isAdded).imp_right (And.imp_right (Or.imp_right
      (sub_goto pcs (by simp [isPc]))))
  · rw [pcs, pcs_goto]
    split
    · trivial
    · exact holds.pcs other

theorem Process.Holds.addValue {val : α} {source : Fin n} (holds : process.Holds owner sent me)
    (isPc : process.pcs thread = .addValue val (some source)) (replies : Replies owner source me)
    (uncollected : source ∉ process.log.values.collected)
    (fresh : ∀ other, process.pcs other ≠ .subValue (some source)) :
    Process.Holds owner sent me { process.goto thread (.subValue (some source)) with
      tls := { process.tls with slots := Reduce.addValue thread val process.tls.slots }
      log := { process.log with added := insert source process.log.added } } := by
  have pcs : Process.pcs { process.goto thread (.subValue (some source)) with
      tls := { process.tls with slots := Reduce.addValue thread val process.tls.slots }
      log := { process.log with added := insert source process.log.added } } =
      (process.goto thread (.subValue (some source))).pcs := rfl
  have slots := addValue_total holds.nodup thread val
  have pending := Process.pending_goto pcs
  have carries := holds.pcs thread
  rw [isPc] at pending carries
  have isNew : source ∉ process.log.added := by
    intro isAdded
    rcases (holds.added source isAdded).2.2 with isCollected | ⟨other, isSub⟩
    · exact uncollected isCollected
    · exact fresh other isSub
  refine ⟨slots.1, ?_, fun q isAdded => ?_, holds.collected.trans (Finset.subset_insert _ _),
    fun other => ?_⟩
  · have same : Process.pending _ = process.pending :=
      (mul_one _).symm.trans (pending.trans (mul_one _))
    rw [slots.2, same, mul_right_comm, holds.total, Finset.prod_insert isNew, carries.2, mul_assoc,
      mul_comm val]
  · rcases Finset.mem_insert.mp isAdded with rfl | isOld
    · exact ⟨replies, carries.1, .inr ⟨thread, by rw [pcs, pcs_goto, if_pos rfl]⟩⟩
    · exact (holds.added q isOld).imp_right (And.imp_right (Or.imp_right
        (sub_goto pcs (by simp [isPc]))))
  · rw [pcs, pcs_goto]
    split
    · exact Finset.mem_insert_self source _
    · exact (holds.pcs other).mono ⟨fun _ => id, fun _ _ => rfl⟩ (Finset.subset_insert _ _)

omit [Inhabited α] in
theorem Process.Holds.subValue {source : Option (Fin n)} (holds : process.Holds owner sent me)
    (isPc : process.pcs thread = .subValue source) :
    Process.Holds owner sent me
      { process.goto thread (if process.tls.nValues = 1 then .valueOwner else .idle) with
        tls := { process.tls with nValues := process.tls.nValues - 1 }
        log := { process.log with
          values := { process.log.values with
            collected := process.log.values.collected ∪ source.toFinset } } } := by
  have pcs : Process.pcs
      { process.goto thread (if process.tls.nValues = 1 then .valueOwner else .idle) with
        tls := { process.tls with nValues := process.tls.nValues - 1 }
        log := { process.log with
          values := { process.log.values with
            collected := process.log.values.collected ∪ source.toFinset } } } =
      (process.goto thread (if process.tls.nValues = 1 then .valueOwner else .idle)).pcs := rfl
  have pending := Process.pending_goto pcs
  have carries := holds.pcs thread
  rw [isPc] at pending carries
  refine ⟨holds.nodup, ?_, fun q isAdded => ?_,
    Finset.union_subset holds.collected fun q isSource => ?_, fun other => ?_⟩
  · refine Eq.trans (congrArg _ ?_) holds.total
    refine (mul_one _).symm.trans (pending.trans ?_)
    split <;> exact mul_one _
  · refine (holds.added q isAdded).imp_right (And.imp_right fun where_ => ?_)
    by_cases isSource : source = some q
    · exact .inl (Finset.mem_union_right _ (by simp [isSource]))
    · refine where_.imp (Finset.mem_union_left _) (sub_goto pcs ?_)
      rw [isPc]
      simpa using isSource
  · rw [Option.mem_toFinset] at isSource
    rw [isSource] at carries
    exact carries
  · rw [pcs, pcs_goto]
    by_cases same : other = thread
    · rw [if_pos same]
      split <;> trivial
    · rw [if_neg same]
      exact holds.pcs other

omit [Inhabited α] in
theorem Process.Holds.putItem (holds : process.Holds owner sent me)
    (isPc : process.pcs thread = .idle) (val : α) :
    Process.Holds owner sent me { process.goto thread (.addValue val none) with
      log := { process.log with items := process.log.items ++ [val] } } := by
  have pcs : Process.pcs { process.goto thread (.addValue val none) with
      log := { process.log with items := process.log.items ++ [val] } } =
      (process.goto thread (.addValue val none)).pcs := rfl
  have pending := Process.pending_goto pcs
  rw [isPc] at pending
  refine ⟨holds.nodup, ?_, fun q isAdded => ?_, holds.collected, fun other => ?_⟩
  · have more : Process.pending _ = process.pending * val := (mul_one _).symm.trans pending
    rw [more, ← mul_assoc]
    change process.tls.slots.total (fun _ => true) * process.pending * val =
      (process.log.items ++ [val]).prod * ∏ q ∈ process.log.added, sent.value q
    rw [holds.total, List.prod_append, List.prod_singleton, mul_right_comm]
  · exact (holds.added q isAdded).imp_right (And.imp_right (Or.imp_right
      (sub_goto pcs (by simp [isPc]))))
  · rw [pcs, pcs_goto]
    split
    · trivial
    · exact holds.pcs other

theorem Process.Holds.moved {stage : Stage} (holds : process.Holds owner sent me)
    (owned : process.Owned owner count stage me) (notCombine : process.pcs thread ≠ .valueCombine)
    (fresh : ∀ val source, process.pcs thread = .addValue val (some source) →
      source ∉ process.log.values.collected ∧ ∀ other, process.pcs other ≠ .subValue (some source))
    (moved : Next me count process thread next messages) : next.Holds owner sent me := by
  have fits := owned.pcs thread
  cases moved with
  | plain isPlain =>
      obtain ⟨pending, pending', notSub⟩ := isPlain.pending
      exact holds.keep rfl rfl rfl rfl rfl (pending'.trans pending.symm)
        (isPlain.carries _) notSub
  | addItem isPc => exact holds.addItem isPc
  | @addValue val source isPc =>
      rw [isPc] at fits
      obtain ⟨uncollected, notSub⟩ := fresh val source isPc
      exact holds.addValue isPc fits.2 uncollected notSub
  | subValue isPc => exact holds.subValue isPc
  | valueCombine isPc => exact absurd isPc notCombine
  | learn learns =>
      refine holds.keep rfl rfl rfl rfl rfl ?_ ?_ fun q => ?_
      all_goals cases isPc : process.pcs thread <;> rw [isPc] at learns <;> cases learns
      all_goals first | rfl | trivial | nofun
  | guard guards =>
      refine holds.keep rfl rfl rfl rfl rfl ?_ ?_ fun q => ?_
      all_goals cases isPc : process.pcs thread <;> rw [isPc] at guards <;> cases guards
      all_goals first | rfl | trivial | nofun
  | store stores =>
      refine holds.keep rfl rfl rfl rfl rfl ?_ ?_ fun q => ?_
      all_goals cases isPc : process.pcs thread <;> rw [isPc] at stores <;> cases stores
      all_goals first | rfl | trivial | nofun
  | raise raises =>
      refine holds.keep rfl rfl rfl rfl rfl ?_ ?_ fun q => ?_
      all_goals cases isPc : process.pcs thread <;> rw [isPc] at raises <;> cases raises
      all_goals first | rfl | trivial | nofun
  | await awaits =>
      refine holds.keep rfl rfl rfl rfl rfl ?_ ?_ fun q => ?_
      all_goals cases isPc : process.pcs thread <;> rw [isPc] at awaits <;> cases awaits
      all_goals first | rfl | trivial | nofun
  | exchange isPc =>
      refine holds.keep rfl rfl rfl rfl rfl ?_ ?_ (by simp [isPc])
      · rw [isPc]
        split <;> rfl
      · split <;> trivial
  | gatherRelease isPc =>
      refine holds.keep rfl rfl (Log.gather_items ..) ?_ ?_ ?_ ?_ (by simp [isPc])
      · rw [Log.gather_added]
      · rw [Log.gather_values]
      · rw [isPc]
        split <;> rfl
      · split <;> trivial
  | putFewer isPc | putUnlock isPc =>
      refine holds.keep (notPut_pcs ..) (by simp only [notPut_tls]) (notPut_items ..) ?_ ?_ ?_ ?_
        (by simp [isPc])
      · simp only [notPut_added]
      · simp only [notPut_values]
      · rw [isPc]
        split <;> rfl
      · split <;> trivial
  | _ isPc =>
      exact holds.keep rfl rfl rfl rfl rfl (by rw [isPc]; rfl) trivial (by simp [isPc])

theorem Next.carries (holds : process.Holds owner sent me)
    (moved : Next me count process thread next messages) (target : Fin n) (message : Msg n α)
    (listed : (target, message) ∈ messages) : message.Carries sent me := by
  cases moved with
  | valueSend isPc known =>
      have carries := holds.pcs thread
      rw [isPc] at carries
      cases List.mem_singleton.mp listed
      exact carries
  | sendCount isPc =>
      cases List.mem_singleton.mp listed
      trivial
  | doneBcast | bcastSend =>
      obtain ⟨receiver, -, same⟩ := List.mem_map.mp listed
      cases same
      trivial
  | _ => exact absurd listed List.not_mem_nil

omit [Fintype Thread] in
theorem Next.combine (moved : Next me count process thread next messages)
    (isCombine : process.pcs thread = .valueCombine) :
    next = { process.goto thread (.valueSend process.tls.slots.combine) with
      log := { process.log with
        values := { process.log.values with replied := true }
        sentValue := process.tls.slots.combine } } ∧ messages = [] := by
  cases moved with
  | valueCombine => exact ⟨rfl, rfl⟩
  | plain isPlain =>
      rw [isCombine] at isPlain
      cases isPlain
  | learn learns =>
      rw [isCombine] at learns
      cases learns
  | guard guards =>
      rw [isCombine] at guards
      cases guards
  | store stores =>
      rw [isCombine] at stores
      cases stores
  | raise raises =>
      rw [isCombine] at raises
      cases raises
  | await awaits =>
      rw [isCombine] at awaits
      cases awaits
  | _ isPc =>
      rw [isCombine] at isPc
      cases isPc

omit [Fintype Thread] in
theorem Next.sameSent (moved : Next me count process thread next messages)
    (notCombine : process.pcs thread ≠ .valueCombine) :
    next.log.values.replied = process.log.values.replied ∧
      next.log.sentValue = process.log.sentValue := by
  cases moved with
  | valueCombine isPc => exact absurd isPc notCombine
  | @putFewer fromCount | @putUnlock fromCount => cases fromCount <;> exact ⟨rfl, rfl⟩
  | @gatherRelease source reply => cases reply <;> exact ⟨rfl, rfl⟩
  | _ => exact ⟨rfl, rfl⟩

omit [Fintype Thread] in
theorem Next.out (moved : Next me count process thread next messages) :
    next.log.out = process.log.out ∨ process.pcs thread = .putOut ∧
      next.log.out = process.log.out ++ [process.tls.slots.combine] := by
  cases moved with
  | putOut isPc => exact .inr ⟨isPc, rfl⟩
  | putFewer | putUnlock => exact .inl (notPut_out ..)
  | gatherRelease => exact .inl (Log.gather_out ..)
  | _ => exact .inl rfl

end Steps

section Runs

variable [DecidableEq Thread] [Inhabited α] {s next : State n Thread α}

/-- No values of no slot are combined, unless a new slot holds the identity. -/
def Filled (s : State n Thread α) : Action n Thread α → Prop
  | .run pid thread =>
      (s.proc pid).pcs thread = .valueCombine ∨ (s.proc pid).pcs thread = .putOut →
        (s.proc pid).tls.slots ≠ [] ∨ (default : α) = 1
  | _ => True

def PutsFilled (owner : Fin n) (count : Int) (s : State n Thread α) (action : Action n Thread α) :
    Prop :=
  Puts owner count s action ∧ Filled s action

instance [DecidableEq α] (owner : Fin n) (count : Int) (s : State n Thread α) :
    DecidablePred (PutsFilled owner count s)
  | .putItem _ _ _ => inferInstanceAs (Decidable (_ ∧ True))
  | .putCount _ => inferInstanceAs (Decidable (_ ∧ True))
  | .receive _ _ => inferInstanceAs (Decidable (_ ∧ True))
  | .run pid thread => inferInstanceAs (Decidable (_ ∧
      ((s.proc pid).pcs thread = .valueCombine ∨ (s.proc pid).pcs thread = .putOut →
        (s.proc pid).tls.slots ≠ [] ∨ (default : α) = 1)))

/-- The values which the processes hold, as long as none of them is sent. -/
theorem holds_of_taken {sent : Sent n α} {action : Action n Thread α}
    (everywhere : Everywhere (fun pid process => process.Holds owner sent pid)
      (fun source _ message => message.Carries sent source) s.proc s.chan)
    (owned : Owned owner count s) (taken : Taken owner count s action next)
    (notCombine : ∀ pid thread, action = .run pid thread →
      (s.proc pid).pcs thread ≠ .valueCombine)
    (fresh : ∀ pid thread val source, (s.proc pid).pcs thread = .addValue val (some source) →
      source ∉ (s.proc pid).log.values.collected ∧
        ∀ other, (s.proc pid).pcs other ≠ .subValue (some source)) :
    Everywhere (fun pid process => process.Holds owner sent pid)
      (fun source _ message => message.Carries sent source) next.proc next.chan := by
  have nothing (pid target : Fin n) (message : Msg n α) (listed : (target, message) ∈ []) :
      message.Carries sent pid := absurd listed List.not_mem_nil
  cases taken with
  | @putItem pid thread val isPc =>
      have after := everywhere.apply ((everywhere.processes pid).putItem isPc val) (nothing pid)
      rwa [Channels.send_nil] at after
  | @putCount thread isPc =>
      have holds : Process.Holds owner sent owner { (s.proc owner).goto thread
          (if count = -1 then .flagSwitch else .countN) with
          log := { (s.proc owner).log with put := true } } := by
        refine (everywhere.processes owner).keep (by rfl) rfl rfl rfl rfl ?_ ?_ (by simp [isPc])
        · rw [isPc]
          split <;> rfl
        · split <;> trivial
      have after := everywhere.apply holds (nothing owner)
      rwa [Channels.send_nil] at after
  | @receive source target message rest isPc head =>
      have carries := everywhere.messages source target message (head ▸ List.mem_cons_self)
      have holds : Process.Holds owner sent target
          { (s.proc target).goto none (handler source message) with
            log := (s.proc target).log.hear message } := by
        refine (everywhere.processes target).keep (by rfl) rfl (Log.hear_items ..)
          (Log.hear_added ..) (by rw [Log.hear_values]) ?_ ?_ (by simp [isPc])
        · rw [isPc]
          cases message <;> rfl
        · cases message with
          | value => exact carries
          | _ => trivial
      have after := (everywhere.tail head).apply holds (nothing target)
      rwa [Channels.send_nil] at after
  | @run pid thread process messages moved =>
      have holds := (everywhere.processes pid).moved (owned.everywhere.processes pid)
        (notCombine pid thread rfl) (fresh pid thread) moved
      exact everywhere.apply holds (moved.carries (everywhere.processes pid))

def State.sent (s : State n Thread α) : Sent n α where
  done q := (s.proc q).log.values.replied = true
  value q := (s.proc q).log.sentValue

structure Values (owner : Fin n) (count : Int) (s : State n Thread α) : Prop where
  everywhere : Everywhere (fun pid process => process.Holds owner s.sent pid)
    (fun source _ message => message.Carries s.sent source) s.proc s.chan
  sent : ∀ q, (s.proc q).log.values.replied = true → 0 < (s.proc owner).log.fired ∧
    (s.proc q).log.sentValue =
      (s.proc q).log.items.prod * ∏ child ∈ (tree owner).children q, (s.proc child).log.sentValue
  out : ∀ value ∈ (s.proc owner).log.out, s.Settled owner count ∧
    value = ∏ pid, (s.proc pid).log.items.prod

omit [Fintype Thread] [CommMonoid α] [DecidableEq Thread] [Inhabited α] in
theorem sent_setProc {pid : Fin n} {process : Process n Thread α}
    {chan : Channels (Fin n) (Msg n α)}
    (replied : process.log.values.replied = (s.proc pid).log.values.replied)
    (value : process.log.sentValue = (s.proc pid).log.sentValue) :
    State.sent { s.setProc pid process with chan := chan } = s.sent := by
  have done (q : Fin n) := field_setProc (fun process => process.log.values.replied) replied q
  have value (q : Fin n) := field_setProc (fun process => process.log.sentValue) value q
  simp only [State.sent, done, value]

omit [CommMonoid α] [DecidableEq Thread] [Inhabited α] in
theorem ValueWave.fresh (wave : ValueWave owner s) {pid : Fin n} {thread : Option Thread} {val : α}
    {source : Fin n} (replies : Replies owner source pid)
    (isPc : (s.proc pid).pcs thread = .addValue val (some source)) :
    source ∉ (s.proc pid).log.values.collected ∧
      ∀ other, (s.proc pid).pcs other ≠ .subValue (some source) := by
  have adding : (valuePhase : Phase n Thread α).up source pid ((s.proc pid).pcs thread) = 1 := by
    rw [isPc]
    simp [valuePhase]
  refine ⟨(wave.gathers.of_taking replies (adding ▸ Nat.one_pos)).1, fun other isSub => ?_⟩
  have different : thread ≠ other := by
    rintro rfl
    rw [isPc] at isSub
    cases isSub
  have two : (valuePhase : Phase n Thread α).up source pid ((s.proc pid).pcs thread) +
      (valuePhase : Phase n Thread α).up source pid ((s.proc pid).pcs other) ≤
        valuePhase.ups s source := State.flow_two different _ _
  have subtracting :
      (valuePhase : Phase n Thread α).up source pid ((s.proc pid).pcs other) = 1 := by
    rw [isSub]
    simp [valuePhase]
  have one := (Sound.of_up wave.gathers replies.1
    (show 0 < valuePhase.ups s source by omega)).2.2
  omega

namespace Values

variable {pid : Fin n} {process : Process n Thread α} (values : Values owner count s)

include values

omit [DecidableEq Thread] [Inhabited α] in
theorem added_eq (gathers : valuePhase.Gathers owner s)
    (all : (s.proc pid).log.values.collected.card = (bcast owner pid).length) :
    (s.proc pid).log.added = (tree owner).children pid := by
  have holds := values.everywhere.processes pid
  have collected := gathers.children_of_card all
  refine Finset.Subset.antisymm (fun q isAdded => ?_) ?_
  · exact ((tree owner).mem_children pid q).mpr (holds.added q isAdded).1
  · rw [← collected]
    exact holds.collected

omit [DecidableEq Thread] [Inhabited α] in
theorem total_eq (gathers : valuePhase.Gathers owner s) (counted : (s.proc pid).AllCounted)
    (all : (s.proc pid).log.values.collected.card = (bcast owner pid).length) :
    (s.proc pid).tls.slots.total (fun _ => true) = (s.proc pid).log.items.prod *
      ∏ child ∈ (tree owner).children pid, (s.proc child).log.sentValue := by
  have total := (values.everywhere.processes pid).total
  rw [Process.pending_eq_one counted, mul_one, values.added_eq gathers all] at total
  exact total

omit [DecidableEq Thread] [Inhabited α] in
/-- When the owner has collected the values of its children, its slots hold all items. -/
theorem total_of_gathered (gathers : valuePhase.Gathers owner s)
    (counted : (s.proc owner).AllCounted)
    (all : (s.proc owner).log.values.collected.card = (bcast owner owner).length) :
    (s.proc owner).tls.slots.total (fun _ => true) = ∏ pid, (s.proc pid).log.items.prod := by
  have isTotal := values.total_eq gathers counted all
  have replied := Sound.replied_all gathers (gathers.children_of_card all)
  have notOwner {p child : Fin n} (isChild : child ∈ (tree owner).children p) : child ≠ owner :=
    (((tree owner).mem_children p child).mp isChild).1
  have product := (tree owner).prod_own (fun q => (s.proc q).log.items.prod)
    (fun q => if q = owner then (s.proc owner).tls.slots.total (fun _ => true)
      else (s.proc q).log.sentValue) fun q => ?_
  · simpa [tree] using product
  · have children : ∏ child ∈ (tree owner).children q,
        (if child = owner then (s.proc owner).tls.slots.total (fun _ => true)
          else (s.proc child).log.sentValue) =
        ∏ child ∈ (tree owner).children q, (s.proc child).log.sentValue :=
      Finset.prod_congr rfl fun child isChild => if_neg (notOwner isChild)
    rw [children]
    split
    · rename_i isOwner
      rw [isOwner, isTotal]
    · rename_i notRoot
      exact (values.sent q (replied q notRoot)).2

omit [DecidableEq Thread] [Inhabited α] in
/-- When all items have been put on the owner, its slots hold them. -/
theorem total_of_alone (counting : Counting owner count s) (settled : s.Settled owner count)
    (notFlag : count ≠ -1) (unfired : (s.proc owner).log.fired = 0)
    (all : count ≤ (s.proc owner).log.counted) (counted : (s.proc owner).AllCounted) :
    (s.proc owner).tls.slots.total (fun _ => true) = ∏ pid, (s.proc pid).log.items.prod := by
  have holds := values.everywhere.processes owner
  have total := holds.total
  have nothing : (s.proc owner).log.added = ∅ := by
    refine Finset.eq_empty_of_forall_notMem fun q isAdded => ?_
    have fired := (values.sent q (holds.added q isAdded).2.1).1
    omega
  have elsewhere (pid : Fin n) (notOwner : pid ≠ owner) : (s.proc pid).log.items = [] := by
    have both : (s.proc pid).log.counted + (s.proc owner).log.counted ≤ s.counted := by
      rw [← Finset.sum_pair notOwner (f := fun pid => (s.proc pid).log.counted)]
      exact Finset.sum_le_sum_of_subset (Finset.subset_univ _)
    have counted := counting.counted_le
    have atMost := counting.atMost
    have same := settled.counted_eq notFlag counting pid
    exact List.length_eq_zero_iff.mp (by omega)
  rw [Process.pending_eq_one counted, nothing, Finset.prod_empty, mul_one, mul_one] at total
  rw [total, Finset.prod_eq_single owner]
  · intro pid _ notOwner
    rw [elsewhere pid notOwner, List.prod_nil]
  · exact fun absent => absurd (Finset.mem_univ owner) absent

theorem after (isCount : count = -1 ∨ 0 ≤ count)
    (reached : Reached (system owner count) (Puts owner count) s) {action : Action n Thread α}
    (allowed : Puts owner count s action) (taken : Taken owner count s action next)
    (le : s.sent.Le next.sent)
    (everywhere : Everywhere (fun pid process => process.Holds owner next.sent pid)
      (fun source _ message => message.Carries next.sent source) next.proc next.chan)
    (sent : ∀ q, (next.proc q).log.values.replied = true →
      (s.proc q).log.values.replied = true ∨ 0 < (next.proc owner).log.fired ∧
        (next.proc q).log.sentValue = (next.proc q).log.items.prod *
          ∏ child ∈ (tree owner).children q, (next.proc child).log.sentValue)
    (out : ∀ value ∈ (next.proc owner).log.out, value ∈ (s.proc owner).log.out ∨
      s.Settled owner count ∧ value = ∏ pid, (s.proc pid).log.items.prod) :
    Values owner count next := by
  refine ⟨everywhere, fun q isReplied => ?_, fun value isOut => ?_⟩
  · refine (sent q isReplied).elim (fun replied => ?_) id
    obtain ⟨fired, isValue⟩ := values.sent q replied
    have items := (State.Settled.of_fired isCount reached fired).items isCount reached allowed taken
    have gathers := (valueWave_of_reached reached).gathers
    refine ⟨(le_of_taken taken owner).fired fired, (le.value q replied).trans (isValue.trans ?_)⟩
    rw [items q]
    congr 1
    refine Finset.prod_congr rfl fun child isChild => (le.value child ?_).symm
    obtain ⟨notRoot, isParent⟩ := ((tree owner).mem_children q child).mp isChild
    refine Sound.replied_of_collected gathers notRoot ?_
    rw [isParent, (gathers.replied q replied).2.2]
    exact isChild
  · have before : s.Settled owner count ∧ value = ∏ pid, (s.proc pid).log.items.prod :=
      (out value isOut).elim (values.out value) id
    refine ⟨before.1.step taken, before.2.trans ?_⟩
    exact Finset.prod_congr rfl fun pid _ => congrArg List.prod
      (before.1.items isCount reached allowed taken pid).symm

/-- A value which is put is the product of all items. -/
theorem combine_eq (isCount : count = -1 ∨ 0 ≤ count)
    (reached : Reached (system owner count) (Puts owner count) s) {thread : Option Thread}
    (isPc : (s.proc owner).pcs thread = .putOut)
    (filled : (s.proc owner).tls.slots ≠ [] ∨ (default : α) = 1) :
    s.Settled owner count ∧
      (s.proc owner).tls.slots.combine = ∏ pid, (s.proc pid).log.items.prod := by
  have ready := (ending_of_reached isCount reached owner rfl).2 thread (by rw [isPc]; rfl)
  have settled := State.Settled.of_ready isCount reached ready
  have counted := settled.allCounted isCount reached owner
  refine ⟨settled, (Combinable.combine_eq_of_filled filled).trans ?_⟩
  cases ready with
  | alone unfired notFlag _ _ all =>
      exact values.total_of_alone (counting_of_reached (isCount.resolve_left notFlag) reached)
        settled notFlag unfired all counted
  | gathered fired all =>
      exact values.total_of_gathered (valueWave_of_reached reached).gathers counted all

/-- A step which sends no value. -/
theorem quiet (isCount : count = -1 ∨ 0 ≤ count)
    (reached : Reached (system owner count) (Puts owner count) s) {action : Action n Thread α}
    (allowed : Puts owner count s action) {chan : Channels (Fin n) (Msg n α)}
    (taken : Taken owner count s action { s.setProc pid process with chan := chan })
    (replied : process.log.values.replied = (s.proc pid).log.values.replied)
    (value : process.log.sentValue = (s.proc pid).log.sentValue)
    (everywhere : Everywhere (fun pid process => process.Holds owner s.sent pid)
      (fun source _ message => message.Carries s.sent source)
      (Function.update s.proc pid process) chan)
    (out : process.log.out = (s.proc pid).log.out ∨ ∃ value,
      process.log.out = (s.proc pid).log.out ++ [value] ∧ s.Settled owner count ∧
        value = ∏ pid, (s.proc pid).log.items.prod) :
    Values owner count { s.setProc pid process with chan := chan } := by
  have same : State.sent { s.setProc pid process with chan := chan } = s.sent :=
    sent_setProc replied value
  refine values.after isCount reached allowed taken ?_ ?_ (fun q isReplied => .inl ?_)
    fun value isOut => ?_
  · rw [same]
    exact ⟨fun _ => id, fun _ _ => rfl⟩
  · rw [same]
    exact everywhere
  · exact (field_setProc (fun process => process.log.values.replied) replied q).symm.trans isReplied
  · by_cases isOwner : owner = pid
    · subst isOwner
      simp only [State.setProc, Function.update_self] at isOut
      rcases out with before | ⟨new, more, isNew⟩
      · exact .inl (before ▸ isOut)
      · rw [more, List.mem_append, List.mem_singleton] at isOut
        refine isOut.imp_right ?_
        rintro rfl
        exact isNew
    · simp only [State.setProc, Function.update_of_ne isOwner] at isOut
      exact .inl isOut

theorem combine (isCount : count = -1 ∨ 0 ≤ count)
    (reached : Reached (system owner count) (Puts owner count) s) {thread : Option Thread}
    (isPc : (s.proc pid).pcs thread = .valueCombine)
    (filled : (s.proc pid).tls.slots ≠ [] ∨ (default : α) = 1)
    {next : State n Thread α} (isNext : next = { s.setProc pid
      { (s.proc pid).goto thread (.valueSend (s.proc pid).tls.slots.combine) with
        log := { (s.proc pid).log with
          values := { (s.proc pid).log.values with replied := true }
          sentValue := (s.proc pid).tls.slots.combine } } with chan := s.chan.send pid [] })
    {action : Action n Thread α} (allowed : Puts owner count s action)
    (taken : Taken owner count s action next) : Values owner count next := by
  have wave := valueWave_of_reached reached
  have fits := ((owned_of_reached reached).everywhere.processes pid).pcs thread
  rw [isPc] at fits
  obtain ⟨notOwner, fired⟩ := fits
  obtain ⟨-, unreplied, all, -⟩ := (wave.takes pid).of_replies (fun _ => trivial) notOwner
    (valueQuiet_of_handler ((roles_of_reached reached).items pid notOwner) isPc rfl rfl)
    (by rw [isPc]; rfl)
  have settled := State.Settled.of_fired isCount reached fired
  have isValue := (Combinable.combine_eq_of_filled filled).trans
    (values.total_eq wave.gathers (settled.allCounted isCount reached pid) all)
  have here : next.sent.done pid ∧ next.sent.value pid = (s.proc pid).tls.slots.combine := by
    subst isNext
    simp [State.sent, State.setProc]
  have elsewhere (q : Fin n) (other : q ≠ pid) : next.proc q = s.proc q := by
    subst isNext
    simp [State.setProc, other]
  have le : s.sent.Le next.sent := by
    refine ⟨fun q done => ?_, fun q done => ?_⟩
    · by_cases same : q = pid
      · exact same ▸ here.1
      · change (next.proc q).log.values.replied = true
        rw [elsewhere q same]
        exact done
    · refine congrArg (fun process => process.log.sentValue) (elsewhere q ?_)
      rintro rfl
      exact Bool.false_ne_true (unreplied.symm.trans done)
  refine values.after isCount reached allowed taken le ?_ (fun q isReplied => ?_)
    fun value isOut => .inl ?_
  · have everywhere := values.everywhere.imp (fun pid process holds => holds.mono le)
      fun source _ message carries => carries.mono le
    have holds : Process.Holds owner next.sent pid
        { (s.proc pid).goto thread (.valueSend (s.proc pid).tls.slots.combine) with
          log := { (s.proc pid).log with
            values := { (s.proc pid).log.values with replied := true }
            sentValue := (s.proc pid).tls.slots.combine } } := by
      refine (everywhere.processes pid).keep (by rfl) rfl rfl rfl rfl ?_ ?_ (by simp [isPc])
      · rw [isPc]
        rfl
      · exact here
    subst isNext
    exact everywhere.apply holds fun _ _ listed => absurd listed List.not_mem_nil
  · by_cases same : q = pid
    · subst same
      refine .inr ⟨(le_of_taken taken owner).fired fired, here.2.trans (isValue.trans ?_)⟩
      rw [settled.items isCount reached allowed taken q]
      congr 1
      refine Finset.prod_congr rfl fun child isChild => ?_
      obtain ⟨notRoot, isParent⟩ := ((tree owner).mem_children q child).mp isChild
      rw [elsewhere child]
      rintro rfl
      exact parent_ne notRoot isParent
    · rw [elsewhere q same] at isReplied
      exact .inl isReplied
  · rwa [elsewhere owner (Ne.symm notOwner)] at isOut

theorem step (isCount : count = -1 ∨ 0 ≤ count)
    (reached : Reached (system owner count) (Puts owner count) s) {action : Action n Thread α}
    (allowed : PutsFilled owner count s action) (taken : Taken owner count s action next) :
    Values owner count next := by
  have wave := valueWave_of_reached reached
  have owned := owned_of_reached reached
  have fresh (pid : Fin n) (thread : Option Thread) (val : α) (source : Fin n)
      (isAdd : (s.proc pid).pcs thread = .addValue val (some source)) :
      source ∉ (s.proc pid).log.values.collected ∧
        ∀ other, (s.proc pid).pcs other ≠ .subValue (some source) := by
    have fits := (owned.everywhere.processes pid).pcs thread
    rw [isAdd] at fits
    exact wave.fresh fits.2 isAdd
  have step := holds_of_taken values.everywhere owned taken
  cases taken with
  | @putItem pid thread val isPc =>
      exact values.quiet isCount reached allowed.1 (.putItem isPc) (by rfl) (by rfl)
        (step nofun fresh) (.inl rfl)
  | @putCount thread isPc =>
      exact values.quiet isCount reached allowed.1 (.putCount isPc) (by rfl) (by rfl)
        (step nofun fresh) (.inl rfl)
  | @receive source target message rest isPc head =>
      exact values.quiet isCount reached allowed.1 (.receive isPc head)
        (by rw [Log.hear_values]) (by cases message <;> rfl) (step nofun fresh)
        (.inl (Log.hear_out ..))
  | @run pid thread process messages moved =>
      by_cases isPc : (s.proc pid).pcs thread = .valueCombine
      · obtain ⟨rfl, rfl⟩ := moved.combine isPc
        exact values.combine isCount reached isPc (allowed.2 (.inl isPc)) rfl allowed.1 (.run moved)
      · have notCombine (other : Fin n) (thread' : Option Thread)
            (isRun : (Action.run pid thread : Action n Thread α) = .run other thread') :
            (s.proc other).pcs thread' ≠ .valueCombine := by
          cases isRun
          exact isPc
        obtain ⟨replied, value⟩ := moved.sameSent isPc
        refine values.quiet isCount reached allowed.1 (.run moved) replied value
          (step notCombine fresh) (moved.out.imp_right fun isOut => ?_)
        have fits := (owned.everywhere.processes pid).pcs thread
        rw [isOut.1] at fits
        obtain rfl : pid = owner := fits.1
        exact ⟨_, isOut.2, values.combine_eq isCount reached isOut.1 (allowed.2 (.inr isOut.1))⟩

end Values

theorem values_of_reached (isCount : count = -1 ∨ 0 ≤ count)
    (reached : Reached (system owner count) (PutsFilled owner count) s) :
    Values owner count s := by
  refine reached.invariant (Values owner count) ?_ ?_
  · rintro state rfl
    refine ⟨⟨fun pid => ⟨List.nodup_nil, ?_, fun q isAdded => ?_, Finset.Subset.refl _,
      fun _ => trivial⟩, fun _ _ _ listed => absurd listed List.not_mem_nil⟩,
      fun q isReplied => absurd isReplied Bool.false_ne_true,
      fun value isOut => absurd isOut List.not_mem_nil⟩
    · simp [start, Process.start, Process.pending, Pc.pending, Combinable.total]
    · simp [start, Process.start] at isAdded
  · intro state action next before values allowed stepped
    exact values.step isCount (before.weaken fun _ _ filled => filled.1) allowed
      (taken_of_step stepped)

/-- The value which is put is the product of all items. -/
theorem reduction_value (isCount : count = -1 ∨ 0 ≤ count)
    (reached : Reached (system owner count) (PutsFilled owner count) s) {value : α}
    (isOut : value ∈ (s.proc owner).log.out) : value = ∏ pid, (s.proc pid).log.items.prod :=
  ((values_of_reached isCount reached).out value isOut).2

end Runs

/-- Items are put on process 3 before and on process 2 while the count is put on process 0, and
there after all counts have come in; process 1, which has none, passes on the value of process 3. -/
def throughEmpty : List (Action 4 Unit ℤ) :=
  [[.putItem 3 () 3], List.replicate 3 (.run 3 (some ())), [.putItem 2 () 5, .putCount ()],
    List.replicate 10 (.run 0 (some ())), List.replicate 3 (.run 2 (some ())),
    [.receive 0 1], List.replicate 7 (.run 1 none), [.receive 0 2], List.replicate 9 (.run 2 none),
    [.receive 1 3], List.replicate 9 (.run 3 none), [.receive 2 0], List.replicate 2 (.run 0 none),
    [.receive 3 1], List.replicate 6 (.run 1 none), [.receive 1 0], List.replicate 5 (.run 0 none),
    [.putItem 0 () 7], List.replicate 14 (.run 0 (some ())),
    [.receive 0 1], List.replicate 8 (.run 1 none), [.receive 0 2], List.replicate 12 (.run 2 none),
    [.receive 1 3], List.replicate 12 (.run 3 none), [.receive 2 0], List.replicate 2 (.run 0 none),
    [.receive 3 1], List.replicate 6 (.run 1 none), [.receive 1 0],
    List.replicate 13 (.run 0 none)].flatten

theorem run_throughEmpty :
    ((system 0 3).run (PutsFilled 0 3) (start 4 Unit ℤ) throughEmpty).any (fun s =>
      decide ((s.proc 0).log.out = [105] ∧ (s.proc 0).log.items = [7] ∧
        (s.proc 1).log.items = [] ∧ (s.proc 2).log.items = [5] ∧
        (s.proc 3).log.items = [3])) = true := by
  decide +kernel

theorem reduction_value_throughEmpty :
    ∃ s : State 4 Unit ℤ,
      (system 0 3).run (PutsFilled 0 3) (start 4 Unit ℤ) throughEmpty = some s ∧
      (s.proc 0).log.out = [105] ∧ 105 = ∏ pid, (s.proc pid).log.items.prod := by
  obtain ⟨s, isRun, facts⟩ := (Option.any_eq_true ..).mp run_throughEmpty
  have isOut := (of_decide_eq_true facts).1
  exact ⟨s, isRun, isOut, reduction_value (.inr (by decide)) (Reached.run (.initial rfl) _ isRun)
    (isOut ▸ List.mem_singleton_self 105)⟩

/-- The only item is put on process 0, on which the count has been put. -/
def besideEmpty : List (Action 2 Unit ℤ) :=
  [[.putCount ()], List.replicate 10 (.run 0 (some ())), [.receive 0 1],
    List.replicate 9 (.run 1 none), [.receive 1 0], List.replicate 5 (.run 0 none),
    [.putItem 0 () 5], List.replicate 14 (.run 0 (some ())), [.receive 0 1],
    List.replicate 12 (.run 1 none), [.receive 1 0], List.replicate 13 (.run 0 none)].flatten

theorem run_besideEmpty :
    ((system 0 1).run (Puts 0 1) (start 2 Unit ℤ) besideEmpty).any (fun s =>
      decide ((s.proc 0).log.out = [0] ∧ (s.proc 0).log.items = [5] ∧
        (s.proc 1).log.items = [])) = true := by
  decide +kernel

/-- A process without items sends a default value: 5 is the product of all items, and 0 is put. -/
theorem wrong_besideEmpty :
    ∃ s : State 2 Unit ℤ,
      (system 0 1).run (Puts 0 1) (start 2 Unit ℤ) besideEmpty = some s ∧
      (s.proc 0).log.out = [0] ∧ ∏ pid, (s.proc pid).log.items.prod = 5 := by
  obtain ⟨s, isRun, facts⟩ := (Option.any_eq_true ..).mp run_besideEmpty
  obtain ⟨isOut, items, none⟩ := of_decide_eq_true facts
  refine ⟨s, isRun, isOut, ?_⟩
  rw [Fin.prod_univ_two, items, none]
  rfl

end CnC.Reduce
