import CnC.Reduce.Once

/-!
# The count of a reduction

The items which a process has counted are kept there, are on their way to the owner, or have
arrived there.  The owner switches the reduction to BCAST_DONE when all items have been counted,
and it alone puts a value, at most once.
-/

namespace CnC.Reduce

open Network Transition

variable {n : Nat} {Thread α : Type} {owner me : Fin n} {count : Int}

namespace Pc

def inHand : Pc n α → Int
  | sendCount _ cnt _ | gatherAdd _ cnt _ => cnt
  | _ => 0

def uncounted : Pc n α → Int
  | addValue _ none | itemCount => 1
  | _ => 0

def Noted (count nreduced : Int) : Pc n α → Prop
  | itemStatus counted | itemOwner counted | itemTest counted | putN _ counted =>
      counted ≤ nreduced
  | itemCounts | doneOwner _ | doneSwitch _ | putLock _ | putStatus _ | putOut =>
      count ≤ nreduced
  | _ => True

theorem uncounted_nonneg (pc : Pc n α) : 0 ≤ pc.uncounted := by
  cases pc with
  | addValue val source => cases source <;> simp [uncounted]
  | _ => simp [uncounted]

theorem Noted.mono {pc : Pc n α} {nreduced nreduced' : Int} (noted : pc.Noted count nreduced)
    (le : nreduced ≤ nreduced') : pc.Noted count nreduced' := by
  cases pc <;> first | exact noted.trans le | trivial

end Pc

def Msg.cnt : Msg n α → Int
  | .gatherCount cnt _ => cnt
  | _ => 0

variable [Fintype Thread]

def Process.balance (process : Process n Thread α) : Int :=
  process.tls.nreduced + ∑ thread, (process.pcs thread).inHand - process.log.counted

structure Process.Counts (owner : Fin n) (count : Int) (me : Fin n)
    (process : Process n Thread α) : Prop where
  items : process.log.counted + ∑ thread, (process.pcs thread).uncounted =
    process.log.items.length
  nonneg : 0 ≤ process.tls.nreduced
  inHand : ∀ thread, 0 ≤ (process.pcs thread).inHand
  noted : me = owner → ∀ thread, (process.pcs thread).Noted count process.tls.nreduced
  all : me = owner → 0 < process.log.fired ∨ process.log.out ≠ [] → count ≤ process.tls.nreduced

section Steps

variable [DecidableEq Thread] {process next : Process n Thread α} {thread : Option Thread}
  {pc : Pc n α}

theorem sum_goto (measure : Pc n α → Int) (process : Process n Thread α) (thread : Option Thread)
    (pc : Pc n α) : ∑ other, measure ((process.goto thread pc).pcs other) =
      ∑ other, measure (process.pcs other) - measure (process.pcs thread) + measure pc :=
  Network.sum_update (fun _ => measure) process.pcs thread pc

theorem balance_change (process : Process n Thread α) (thread : Option Thread)
    (pcs : next.pcs = (process.goto thread pc).pcs) {sent : Int}
    (numbers : next.tls.nreduced + pc.inHand + process.log.counted + sent =
      process.tls.nreduced + (process.pcs thread).inHand + next.log.counted) :
    next.balance + sent = process.balance := by
  unfold Process.balance
  rw [pcs, sum_goto]
  omega

theorem Process.Counts.change (counts : process.Counts owner count me)
    (pcs : next.pcs = (process.goto thread pc).pcs)
    (items : next.log.counted + pc.uncounted + process.log.items.length =
      process.log.counted + (process.pcs thread).uncounted + next.log.items.length)
    (nonneg : 0 ≤ next.tls.nreduced) (inHand : 0 ≤ pc.inHand)
    (noted : me = owner → pc.Noted count next.tls.nreduced)
    (mono : me = owner → process.tls.nreduced ≤ next.tls.nreduced)
    (all : me = owner → 0 < next.log.fired ∨ next.log.out ≠ [] → count ≤ next.tls.nreduced) :
    next.Counts owner count me := by
  refine ⟨?_, nonneg, fun other => ?_, fun isMe other => ?_, all⟩
  · have before := counts.items
    rw [pcs, sum_goto]
    omega
  · rw [pcs, pcs_goto]
    split
    · exact inHand
    · exact counts.inHand other
  · rw [pcs, pcs_goto]
    split
    · exact noted isMe
    · exact (counts.noted isMe other).mono (mono isMe)

theorem Process.Counts.quiet (counts : process.Counts owner count me)
    (pcs : next.pcs = (process.goto thread pc).pcs)
    (uncounted : pc.uncounted = (process.pcs thread).uncounted) (inHand : 0 ≤ pc.inHand)
    (noted : me = owner → pc.Noted count process.tls.nreduced)
    (sameReduced : next.tls.nreduced = process.tls.nreduced)
    (sameCounted : next.log.counted = process.log.counted)
    (sameItems : next.log.items = process.log.items)
    (sameFired : next.log.fired = process.log.fired)
    (sameOut : next.log.out = process.log.out) : next.Counts owner count me := by
  refine counts.change pcs ?_ ?_ inHand ?_ ?_ ?_
  · rw [uncounted, sameCounted, sameItems]
  · rw [sameReduced]
    exact counts.nonneg
  · rw [sameReduced]
    exact noted
  · rw [sameReduced]
    exact fun _ => le_rfl
  · rw [sameReduced, sameFired, sameOut]
    exact counts.all

omit [Fintype Thread] [DecidableEq Thread] in
theorem Plain.counts {pc' : Pc n α} (moved : Plain me process pc pc') :
    pc.uncounted = 0 ∧ pc'.uncounted = 0 ∧ pc.inHand = 0 ∧ pc'.inHand = 0 := by
  cases moved <;> exact ⟨rfl, rfl, rfl, rfl⟩

omit [Fintype Thread] [DecidableEq Thread] in
theorem Plain.noted {pc' : Pc n α} {stage : Stage} (moved : Plain me process pc pc')
    (isStage : process.stage owner count = stage) (sound : stage.Sound)
    (fits : pc.Fits owner count stage me)
    (noted : pc.Noted count process.tls.nreduced) : pc'.Noted count process.tls.nreduced := by
  cases moved with
  | itemStatus | itemOwn | itemDone | putFirst => exact noted
  | itemAll =>
      have ready := sound.ready fits.2
      rw [← isStage] at ready
      exact (show process.tls.n = count from ready) ▸ noted
  | putReduced => exact le_rfl
  | putAll =>
      have ready := fits.2.1
      rw [← isStage] at ready
      exact (show process.tls.n = count from ready) ▸ noted
  | gatherAll => exact fits.2.2.ge
  | _ => trivial

variable [Mul α] [One α] [Inhabited α] {sent : List (Fin n × Msg n α)} {stage : Stage}

theorem Process.Counts.moved (counts : process.Counts owner count me)
    (owned : process.Owned owner count stage me) (sound : stage.Sound)
    (isStage : me = owner → process.stage owner count = stage)
    (all : me = owner → stage.fired → process.tls.nreduced = count)
    (operation : Next me count process thread next sent) : next.Counts owner count me := by
  have fits := owned.pcs thread
  have noted (isMe : me = owner) := counts.noted isMe thread
  cases operation with
  | plain isPlain =>
      obtain ⟨uncounted, uncounted', inHand, inHand'⟩ := isPlain.counts
      exact counts.quiet rfl (uncounted'.trans uncounted.symm) inHand'.ge
        (fun isMe => isPlain.noted (isStage isMe) sound fits (noted isMe)) rfl rfl rfl rfl rfl
  | addItem isPc =>
      exact counts.quiet rfl (by rw [isPc]; rfl) le_rfl (fun _ => trivial) rfl rfl rfl rfl rfl
  | addValue isPc =>
      exact counts.quiet rfl (by rw [isPc]; rfl) le_rfl (fun _ => trivial) rfl rfl rfl rfl rfl
  | itemCount isPc =>
      have nonneg := counts.nonneg
      refine counts.change rfl ?_ (Int.le_add_one nonneg) le_rfl (fun _ => le_rfl)
        (fun _ => Int.le_add_one le_rfl) fun isMe before => Int.le_add_one (counts.all isMe before)
      rw [isPc]
      change ((process.log.counted + 1 : Nat) : Int) + 0 + process.log.items.length =
        process.log.counted + 1 + process.log.items.length
      omega
  | exchange isPc =>
      rw [isPc] at fits
      have nonneg := counts.nonneg
      refine counts.change rfl ?_ le_rfl ?_ (fun isMe => absurd isMe fits.1)
        (fun isMe => absurd isMe fits.1) fun isMe => absurd isMe fits.1
      · rw [isPc]
        split <;> rfl
      · split
        · exact nonneg
        · exact le_rfl
  | sendCount isPc =>
      exact counts.quiet rfl (by rw [isPc]; rfl) le_rfl (fun _ => trivial) rfl rfl rfl rfl rfl
  | learn learns =>
      refine counts.quiet rfl ?_ ?_ ?_ rfl rfl rfl rfl rfl
      all_goals cases isPc : process.pcs thread <;> rw [isPc] at learns noted <;> cases learns
      · rfl
      · rfl
      · exact le_rfl
      · exact le_rfl
      · exact noted
      · exact fun _ => trivial
  | hear isPc notMe =>
      exact counts.quiet rfl (by rw [isPc]; rfl) le_rfl (fun _ => trivial) rfl rfl rfl rfl rfl
  | fire isPc available =>
      rw [isPc] at noted
      refine counts.change rfl ?_ counts.nonneg le_rfl (fun _ => trivial) (fun _ => le_rfl)
        fun isMe _ => noted isMe
      rw [isPc]
      rfl
  | guard guards =>
      refine counts.quiet rfl ?_ ?_ ?_ rfl rfl rfl rfl rfl
      all_goals cases isPc : process.pcs thread <;> rw [isPc] at guards <;> cases guards
      all_goals first | rfl | exact le_rfl | exact fun _ => trivial
  | doneBcast isPc =>
      exact counts.quiet rfl (by rw [isPc]; rfl) le_rfl (fun _ => trivial) rfl rfl rfl rfl rfl
  | doneFinish isPc =>
      exact counts.quiet rfl (by rw [isPc]; rfl) le_rfl (fun _ => trivial) rfl rfl rfl rfl rfl
  | subValue isPc =>
      refine counts.quiet rfl ?_ ?_ ?_ rfl rfl rfl rfl rfl
      · rw [isPc]
        split <;> rfl
      · split <;> exact le_rfl
      · split <;> exact fun _ => trivial
  | valueReduced isPc =>
      rw [isPc] at fits
      obtain ⟨isMe, fired, rfl⟩ := fits
      have same := all isMe fired
      exact counts.quiet rfl (by rw [isPc]; rfl) le_rfl (fun _ => trivial) same.symm rfl rfl rfl rfl
  | valueCombine isPc =>
      exact counts.quiet rfl (by rw [isPc]; rfl) le_rfl (fun _ => trivial) rfl rfl rfl rfl rfl
  | valueSend isPc known =>
      exact counts.quiet rfl (by rw [isPc]; rfl) le_rfl (fun _ => trivial) rfl rfl rfl rfl rfl
  | valueLost isPc unknown =>
      exact counts.quiet rfl (by rw [isPc]; rfl) le_rfl (fun _ => trivial) rfl rfl rfl rfl rfl
  | valueDone isPc =>
      exact counts.quiet rfl (by rw [isPc]; rfl) le_rfl (fun _ => trivial) rfl rfl rfl rfl rfl
  | putFewer isPc fewer =>
      refine counts.quiet (notPut_pcs ..) ?_ ?_ ?_ (by rw [notPut_tls]) (notPut_counted ..)
        (notPut_items ..) (notPut_fired ..) (notPut_out ..)
      · rw [isPc]
        split <;> rfl
      · split <;> exact le_rfl
      · split <;> exact fun _ => trivial
  | putLock isPc unlocked =>
      rw [isPc] at noted
      exact counts.quiet rfl (by rw [isPc]; rfl) le_rfl noted rfl rfl rfl rfl rfl
  | putOut isPc =>
      rw [isPc] at noted
      refine counts.change rfl ?_ counts.nonneg le_rfl (fun _ => trivial) (fun _ => le_rfl)
        fun isMe _ => noted isMe
      rw [isPc]
      rfl
  | putDone isPc =>
      exact counts.quiet rfl (by rw [isPc]; rfl) le_rfl (fun _ => trivial) rfl rfl rfl rfl rfl
  | putUnlock isPc =>
      refine counts.quiet (notPut_pcs ..) ?_ ?_ ?_ rfl (notPut_counted ..)
        (notPut_items ..) (notPut_fired ..) (notPut_out ..)
      · rw [isPc]
        split <;> rfl
      · split <;> exact le_rfl
      · split <;> exact fun _ => trivial
  | store stores =>
      refine counts.quiet rfl ?_ ?_ ?_ rfl rfl rfl rfl rfl
      all_goals cases isPc : process.pcs thread <;> rw [isPc] at stores <;> cases stores
      all_goals first | rfl | exact le_rfl | exact fun _ => trivial
  | raise raises =>
      refine counts.quiet rfl ?_ ?_ ?_ rfl rfl rfl rfl rfl
      all_goals cases isPc : process.pcs thread <;> rw [isPc] at raises <;> cases raises
      all_goals first | rfl | exact le_rfl | exact fun _ => trivial
  | await awaits =>
      refine counts.quiet rfl ?_ ?_ ?_ rfl rfl rfl rfl rfl
      all_goals cases isPc : process.pcs thread <;> rw [isPc] at awaits fits <;> cases awaits
      all_goals first
        | rfl
        | exact le_rfl
        | exact fun _ => trivial
        | exact fun _ => fits.2.2 ▸ (by decide : (-1 : Int) ≤ 0).trans counts.nonneg
  | bcastSend isPc =>
      exact counts.quiet rfl (by rw [isPc]; rfl) le_rfl (fun _ => trivial) rfl rfl rfl rfl rfl
  | gatherAdd isPc =>
      have inHand := counts.inHand thread
      rw [isPc] at inHand
      have more := Int.le_add_of_nonneg_right (a := process.tls.nreduced) inHand
      exact counts.change rfl (by rw [isPc]; rfl) (counts.nonneg.trans more) le_rfl
        (fun _ => trivial) (fun _ => more) fun isMe before => (counts.all isMe before).trans more
  | gatherRelease isPc =>
      refine counts.quiet rfl ?_ ?_ ?_ rfl (Log.gather_counted ..) (Log.gather_items ..)
        (Log.gather_fired ..) (Log.gather_out ..)
      · rw [isPc]
        split <;> rfl
      · split <;> exact le_rfl
      · split <;> exact fun _ => trivial

omit [Mul α] [One α] [Inhabited α] in
theorem Process.balance_keep (pcs : next.pcs = (process.goto thread pc).pcs)
    (had : (process.pcs thread).inHand = 0) (has : pc.inHand = 0)
    (sameReduced : next.tls.nreduced = process.tls.nreduced)
    (sameCounted : next.log.counted = process.log.counted)
    (noCount : ∀ pair ∈ sent, pair.2.cnt = 0) :
    next.balance + (sent.map fun pair => pair.2.cnt).sum = process.balance := by
  have nothing : (sent.map fun pair => pair.2.cnt).sum = 0 := by
    refine List.sum_eq_zero fun cnt listed => ?_
    obtain ⟨pair, member, rfl⟩ := List.mem_map.mp listed
    exact noCount pair member
  refine balance_change process thread pcs ?_
  rw [had, has, sameReduced, sameCounted, nothing, add_zero]

omit [Fintype Thread] [DecidableEq Thread] [Mul α] [One α] [Inhabited α] in
theorem noCount_nil (pair : Fin n × Msg n α) (listed : pair ∈ ([] : List (Fin n × Msg n α))) :
    pair.2.cnt = 0 :=
  absurd listed List.not_mem_nil

omit [Fintype Thread] [DecidableEq Thread] [Mul α] [One α] [Inhabited α] in
theorem noCount_bcast {receivers : List (Fin n)} {message : Msg n α} (noCount : message.cnt = 0)
    (pair : Fin n × Msg n α) (listed : pair ∈ receivers.map fun receiver => (receiver, message)) :
    pair.2.cnt = 0 := by
  obtain ⟨receiver, -, rfl⟩ := List.mem_map.mp listed
  exact noCount

theorem Next.balance (owned : process.Owned owner count stage me)
    (all : me = owner → stage.fired → process.tls.nreduced = count)
    (nonneg : 0 ≤ process.tls.nreduced)
    (moved : Next me count process thread next sent) :
    next.balance + (sent.map fun pair => pair.2.cnt).sum = process.balance := by
  have fits := owned.pcs thread
  cases moved with
  | plain isPlain =>
      obtain ⟨-, -, inHand, inHand'⟩ := isPlain.counts
      exact Process.balance_keep rfl inHand inHand' rfl rfl noCount_nil
  | itemCount isPc =>
      refine balance_change process thread (by rfl) ?_
      rw [isPc]
      change process.tls.nreduced + 1 + 0 + process.log.counted + 0 =
        process.tls.nreduced + 0 + ((process.log.counted + 1 : Nat) : Int)
      omega
  | exchange isPc =>
      refine balance_change process thread (by rfl) ?_
      rw [isPc]
      split
      · change 0 + process.tls.nreduced + process.log.counted + 0 =
          process.tls.nreduced + 0 + process.log.counted
        omega
      · rename_i keeps
        have nothing : process.tls.nreduced = 0 :=
          le_antisymm (not_lt.mp fun positive => keeps (.inr positive)) nonneg
        rw [nothing]
        rfl
  | @sendCount receiver cnt always isPc =>
      refine balance_change process thread (by rfl) ?_
      rw [isPc]
      change process.tls.nreduced + 0 + process.log.counted + (cnt + 0) =
        process.tls.nreduced + cnt + process.log.counted
      omega
  | @gatherAdd source cnt reply isPc =>
      refine balance_change process thread (by rfl) ?_
      rw [isPc]
      change process.tls.nreduced + cnt + 0 + process.log.counted + 0 =
        process.tls.nreduced + cnt + process.log.counted
      omega
  | valueReduced isPc =>
      rw [isPc] at fits
      obtain ⟨isMe, fired, rfl⟩ := fits
      exact Process.balance_keep rfl (by rw [isPc]; rfl) rfl (all isMe fired).symm rfl noCount_nil
  | learn learns =>
      refine Process.balance_keep rfl ?_ ?_ rfl rfl noCount_nil
      all_goals cases isPc : process.pcs thread <;> rw [isPc] at learns <;> cases learns <;> rfl
  | guard guards =>
      refine Process.balance_keep rfl ?_ ?_ rfl rfl noCount_nil
      all_goals cases isPc : process.pcs thread <;> rw [isPc] at guards <;> cases guards <;> rfl
  | store stores =>
      refine Process.balance_keep rfl ?_ ?_ rfl rfl noCount_nil
      all_goals cases isPc : process.pcs thread <;> rw [isPc] at stores <;> cases stores <;> rfl
  | raise raises =>
      refine Process.balance_keep rfl ?_ ?_ rfl rfl noCount_nil
      all_goals cases isPc : process.pcs thread <;> rw [isPc] at raises <;> cases raises <;> rfl
  | await awaits =>
      refine Process.balance_keep rfl ?_ ?_ rfl rfl noCount_nil
      all_goals cases isPc : process.pcs thread <;> rw [isPc] at awaits <;> cases awaits <;> rfl
  | subValue isPc =>
      exact Process.balance_keep rfl (by rw [isPc]; rfl) (by split <;> rfl) rfl rfl noCount_nil
  | putFewer isPc fewer =>
      exact Process.balance_keep (notPut_pcs ..) (by rw [isPc]; rfl) (by split <;> rfl)
        (by rw [notPut_tls]) (notPut_counted ..) noCount_nil
  | putUnlock isPc =>
      exact Process.balance_keep (notPut_pcs ..) (by rw [isPc]; rfl) (by split <;> rfl) rfl
        (notPut_counted ..) noCount_nil
  | gatherRelease isPc =>
      exact Process.balance_keep rfl (by rw [isPc]; rfl) (by split <;> rfl) rfl
        (Log.gather_counted ..) noCount_nil
  | addItem isPc | addValue isPc | hear isPc | fire isPc | doneFinish isPc | valueCombine isPc
  | valueLost isPc | valueDone isPc | putLock isPc | putOut isPc | putDone isPc =>
      exact Process.balance_keep rfl (by rw [isPc]; rfl) rfl rfl rfl noCount_nil
  | doneBcast isPc | bcastSend isPc =>
      exact Process.balance_keep rfl (by rw [isPc]; rfl) rfl rfl rfl (noCount_bcast rfl)
  | valueSend isPc known =>
      refine Process.balance_keep rfl (by rw [isPc]; rfl) rfl rfl rfl fun pair listed => ?_
      cases List.mem_singleton.mp listed
      rfl

omit [Fintype Thread] in
theorem Next.items (moved : Next me count process thread next sent) :
    next.log.items = process.log.items := by
  cases moved with
  | putFewer | putUnlock => exact notPut_items ..
  | gatherRelease => exact Log.gather_items ..
  | _ => rfl

theorem Next.cnt_nonneg (counts : process.Counts owner count me)
    (moved : Next me count process thread next sent) (pair : Fin n × Msg n α)
    (listed : pair ∈ sent) : 0 ≤ pair.2.cnt := by
  cases moved with
  | sendCount isPc =>
      have inHand := counts.inHand thread
      rw [isPc] at inHand
      cases List.mem_singleton.mp listed
      exact inHand
  | valueSend =>
      cases List.mem_singleton.mp listed
      exact le_rfl
  | doneBcast | bcastSend => exact (noCount_bcast rfl pair listed).ge
  | _ => exact (noCount_nil pair listed).ge

end Steps

section Runs

variable [DecidableEq Thread] {s next : State n Thread α}

structure Counting (owner : Fin n) (count : Int) (s : State n Thread α) : Prop where
  everywhere : Everywhere (fun pid process => process.Counts owner count pid)
    (fun _ _ message => 0 ≤ message.cnt) s.proc s.chan
  total : Network.total (fun _ process => process.balance) Msg.cnt s.proc s.chan = 0
  atMost : (s.items : Int) ≤ count

def State.counted (s : State n Thread α) : Nat :=
  ∑ pid, (s.proc pid).log.counted

namespace Counting

variable (counting : Counting owner count s)

include counting

omit [DecidableEq Thread] in
/-- The counts in the processes, in the hands of threads and in messages are those of the items
which have been counted. -/
theorem conserved : ∑ pid, (s.proc pid).tls.nreduced +
    (∑ pid, ∑ thread, ((s.proc pid).pcs thread).inHand + weight Msg.cnt s.chan) = s.counted := by
  have total := counting.total
  simp only [Network.total, Process.balance, Finset.sum_sub_distrib,
    Finset.sum_add_distrib] at total
  rw [State.counted]
  push_cast
  omega

omit [DecidableEq Thread] in
theorem counted_le_items (pid : Fin n) :
    (s.proc pid).log.counted ≤ (s.proc pid).log.items.length := by
  have items := (counting.everywhere.processes pid).items
  have nonneg : 0 ≤ ∑ thread, ((s.proc pid).pcs thread).uncounted :=
    Finset.sum_nonneg fun thread _ => Pc.uncounted_nonneg _
  omega

omit [DecidableEq Thread] in
theorem counted_le : s.counted ≤ s.items :=
  Finset.sum_le_sum fun pid _ => counting.counted_le_items pid

omit [DecidableEq Thread] in
theorem nreduced_le (pid : Fin n) : (s.proc pid).tls.nreduced ≤ s.counted := by
  have conserved := counting.conserved
  have one : (s.proc pid).tls.nreduced ≤ ∑ pid, (s.proc pid).tls.nreduced :=
    Finset.single_le_sum (f := fun pid => (s.proc pid).tls.nreduced)
      (fun other _ => (counting.everywhere.processes other).nonneg) (Finset.mem_univ pid)
  have inHand : 0 ≤ ∑ pid, ∑ thread, ((s.proc pid).pcs thread).inHand :=
    Finset.sum_nonneg fun other _ => Finset.sum_nonneg fun thread _ =>
      (counting.everywhere.processes other).inHand thread
  have sent : 0 ≤ weight Msg.cnt s.chan := by
    refine Finset.sum_nonneg fun i _ => Finset.sum_nonneg fun j _ => List.sum_nonneg ?_
    intro value membership
    obtain ⟨message, member, rfl⟩ := List.mem_map.mp membership
    exact counting.everywhere.messages i j message member
  omega

omit [DecidableEq Thread] in
/-- When the owner has switched to BCAST_DONE or put the value, all items have been counted and it
knows so. -/
theorem all (fired : 0 < (s.proc owner).log.fired ∨ (s.proc owner).log.out ≠ []) :
    (s.proc owner).tls.nreduced = count ∧ (s.counted : Int) = count ∧ (s.items : Int) = count := by
  have atLeast := (counting.everywhere.processes owner).all rfl fired
  have atMost := counting.nreduced_le owner
  have counted := counting.counted_le
  have items := counting.atMost
  omega

end Counting

omit [Fintype Thread] [DecidableEq Thread] in
theorem items_setProc (s : State n Thread α) (pid : Fin n) (process : Process n Thread α)
    (chan : Channels (Fin n) (Msg n α)) :
    (({ s.setProc pid process with chan := chan } : State n Thread α).items : Int) =
      s.items - (s.proc pid).log.items.length + process.log.items.length := by
  have sum := Network.sum_update (fun _ (process : Process n Thread α) =>
    (process.log.items.length : Int)) s.proc pid process
  simpa [State.items, State.setProc] using sum

variable [Mul α] [One α] [Inhabited α]

omit [DecidableEq Thread] [Mul α] [Inhabited α] in
theorem counting_start (owner : Fin n) (natural : 0 ≤ count) :
    Counting owner count (start n Thread α) := by
  refine ⟨⟨fun pid => ⟨?_, le_rfl, fun _ => le_rfl, fun _ _ => trivial,
    fun _ before => before.elim (absurd · (Nat.lt_irrefl 0)) (absurd rfl)⟩,
    fun i j message membership => absurd membership List.not_mem_nil⟩, ?_, ?_⟩
  · simp [start, Process.start, Pc.uncounted]
  · simp [start, Process.start, Network.total, Process.balance, Pc.inHand, weight]
  · simpa [State.items, start, Process.start] using natural

omit [DecidableEq Thread] [Mul α] [One α] [Inhabited α] in
theorem Counting.apply (counting : Counting owner count s) {pid : Fin n}
    {process : Process n Thread α} {sent : List (Fin n × Msg n α)}
    (counts : process.Counts owner count pid)
    (nonneg : ∀ pair ∈ sent, 0 ≤ pair.2.cnt)
    (balance : process.balance + (sent.map fun pair => pair.2.cnt).sum = (s.proc pid).balance)
    (items : (s.items : Int) - (s.proc pid).log.items.length + process.log.items.length ≤ count) :
    Counting owner count { s.setProc pid process with chan := s.chan.send pid sent } where
  everywhere := counting.everywhere.apply counts fun target message listed =>
    nonneg (target, message) listed
  total := by
    have before := counting.total
    have after := Network.total_apply (fun _ (process : Process n Thread α) => process.balance)
      Msg.cnt s.proc s.chan pid process sent
    refine after.trans ?_
    omega
  atMost := by
    rw [items_setProc]
    exact items

omit [DecidableEq Thread] [Mul α] [One α] [Inhabited α] in
theorem Counting.update (counting : Counting owner count s) {pid : Fin n}
    {process : Process n Thread α} (counts : process.Counts owner count pid)
    (balance : process.balance = (s.proc pid).balance)
    (items : (s.items : Int) - (s.proc pid).log.items.length + process.log.items.length ≤ count) :
    Counting owner count (s.setProc pid process) := by
  have after := counting.apply counts (fun _ listed => absurd listed List.not_mem_nil)
    (balance ▸ add_zero _) items
  rw [Channels.send_nil] at after
  exact after

omit [DecidableEq Thread] [Mul α] [One α] [Inhabited α] in
theorem Counting.take (counting : Counting owner count s) {source target : Fin n}
    {message : Msg n α} {rest : List (Msg n α)} {process : Process n Thread α}
    (head : s.chan source target = message :: rest) (counts : process.Counts owner count target)
    (balance : process.balance = (s.proc target).balance + message.cnt)
    (items : process.log.items = (s.proc target).log.items) :
    Counting owner count
      { s.setProc target process with chan := s.chan.setQueue source target rest } where
  everywhere := by
    have after := (counting.everywhere.tail head).apply counts
      fun (_ : Fin n) (other : Msg n α) (listed : (_, other) ∈ []) => absurd listed List.not_mem_nil
    rwa [Channels.send_nil] at after
  total := by
    have before := counting.total
    have after := Network.total_take (fun _ (process : Process n Thread α) => process.balance)
      Msg.cnt s.proc head process
    refine after.trans ?_
    omega
  atMost := by
    have atMost := counting.atMost
    rw [items_setProc, items]
    omega

theorem Counting.step (counting : Counting owner count s) (owned : Owned owner count s)
    (natural : 0 ≤ count) {action : Action n Thread α} (allowed : Puts owner count s action)
    (taken : Taken owner count s action next) : Counting owner count next := by
  have atMost := counting.atMost
  cases taken with
  | @putItem pid thread val isPc =>
      have counts := counting.everywhere.processes pid
      have more : ((s.proc pid).log.items ++ [val]).length = (s.proc pid).log.items.length + 1 :=
        List.length_append
      have notFlag : count ≠ -1 := by omega
      have room : (s.items : Int) < count := by
        simpa only [Puts, if_neg notFlag] using allowed
      refine counting.update (counts.change rfl ?_ counts.nonneg le_rfl (fun _ => trivial)
        (fun _ => le_rfl) counts.all) ?_ ?_
      · rw [isPc, more]
        change ((s.proc pid).log.counted : Int) + 1 + (s.proc pid).log.items.length =
          (s.proc pid).log.counted + 0 + ((s.proc pid).log.items.length + 1 : Nat)
        omega
      · rw [← add_zero (Process.balance _)]
        refine balance_change (s.proc pid) thread (by rfl) ?_
        rw [isPc]
        exact add_zero _
      · rw [more]
        omega
  | @putCount thread isPc =>
      have counts := counting.everywhere.processes owner
      refine counting.update (counts.quiet rfl ?_ ?_ ?_ rfl rfl rfl rfl rfl) ?_ ?_
      · rw [isPc]
        split <;> rfl
      · split <;> exact le_rfl
      · split <;> exact fun _ => trivial
      · rw [← add_zero (Process.balance _)]
        refine balance_change (s.proc owner) thread (by rfl) ?_
        rw [isPc]
        split <;> exact add_zero _
      · change (s.items : Int) - (s.proc owner).log.items.length +
          (s.proc owner).log.items.length ≤ count
        omega
  | @receive source target message rest isPc head =>
      have counts := counting.everywhere.processes target
      have arrived : message ∈ s.chan source target := by
        rw [head]
        exact List.mem_cons_self
      have nonneg := counting.everywhere.messages source target message arrived
      have fits := owned.everywhere.messages source target message arrived
      refine counting.take head (counts.quiet rfl ?_ ?_ ?_ rfl ?_ ?_ (Log.hear_fired ..)
        (Log.hear_out ..)) ?_ ?_
      · rw [isPc]
        cases message <;> rfl
      · cases message with
        | gatherCount cnt reply => exact nonneg
        | _ => exact le_rfl
      · cases message with
        | done o => exact fun isOwner => absurd isOwner fits.2.1
        | _ => exact fun _ => trivial
      · cases message <;> rfl
      · cases message <;> rfl
      · rw [← sub_eq_iff_eq_add, sub_eq_add_neg]
        refine balance_change (s.proc target) none (by rfl) ?_
        rw [isPc]
        cases message with
        | gatherCount cnt reply =>
            change (s.proc target).tls.nreduced + cnt + (s.proc target).log.counted + -cnt =
              (s.proc target).tls.nreduced + 0 + (s.proc target).log.counted
            omega
        | _ => exact add_zero _
      · cases message <;> rfl
  | @run pid thread process sent moved =>
      have counts := counting.everywhere.processes pid
      have ofPid := owned.everywhere.processes pid
      have all (isOwner : pid = owner) (fired : (s.stage owner count).fired) :
          (s.proc pid).tls.nreduced = count := by
        subst isOwner
        exact (counting.all (.inl fired)).1
      refine counting.apply (counts.moved ofPid owned.sound (Owned.isStage s pid) all moved)
        (moved.cnt_nonneg counts) (moved.balance ofPid all counts.nonneg) ?_
      rw [moved.items]
      omega

theorem counting_of_reached (natural : 0 ≤ count)
    (reached : Reached (system owner count) (Puts owner count) s) : Counting owner count s := by
  refine reached.invariant (Counting owner count) ?_ ?_
  · rintro state rfl
    exact counting_start owner natural
  · intro state action next before counting allowed stepped
    exact counting.step (owned_of_reached before) natural allowed (taken_of_step stepped)

/-- The counts are conserved and never exceed that of the reduction, the owner is the only process
which switches to BCAST_DONE and puts a value, both at most once, and neither before all items have
been counted. -/
theorem counting_safe (natural : 0 ≤ count)
    (reached : Reached (system owner count) (Puts owner count) s) :
    ∑ pid, (s.proc pid).tls.nreduced +
        (∑ pid, ∑ thread, ((s.proc pid).pcs thread).inHand + weight Msg.cnt s.chan) = s.counted ∧
      (∀ pid, 0 ≤ (s.proc pid).tls.nreduced ∧ (s.proc pid).tls.nreduced ≤ count ∧
        ((s.proc pid).tls.n = -1 ∨ (s.proc pid).tls.n = count)) ∧
      (∀ pid, (s.proc pid).log.fired ≤ (if pid = owner then 1 else 0) ∧
        (s.proc pid).log.out.length ≤ if pid = owner then 1 else 0) ∧
      ((0 < (s.proc owner).log.fired ∨ (s.proc owner).log.out ≠ []) →
        (s.counted : Int) = count ∧ (s.items : Int) = count) := by
  have counting := counting_of_reached natural reached
  refine ⟨counting.conserved, fun pid => ?_, fun pid => ?_, fun before => (counting.all before).2⟩
  · have owned := (owned_of_reached reached).everywhere.processes pid
    have counted : (s.counted : Int) ≤ s.items := Int.ofNat_le.mpr counting.counted_le
    exact ⟨(counting.everywhere.processes pid).nonneg,
      (counting.nreduced_le pid).trans (counted.trans counting.atMost), owned.n⟩
  · have once := once_of_reached reached pid
    split
    · refine ⟨once.fired, ?_⟩
      rcases once.put with none | one
      · rw [none]
        exact Nat.zero_le 1
      · exact one.1.le
    · rename_i notOwner
      obtain ⟨unfired, none⟩ := once.other notOwner
      exact ⟨unfired.le, none ▸ Nat.le_refl 0⟩

end Runs

/-- Process 1 counts an item before it hears of the count, which is put on process 0, and another
item after it has replied. -/
def lateItem : List (Action 2 Unit ℤ) :=
  [[.putItem 1 () 5], List.replicate 3 (.run 1 (some ())), [.putCount ()],
    List.replicate 10 (.run 0 (some ())), [.receive 0 1], List.replicate 9 (.run 1 none),
    [.receive 1 0], List.replicate 5 (.run 0 none), [.putItem 1 () 7],
    List.replicate 7 (.run 1 (some ())), [.receive 1 0], List.replicate 13 (.run 0 none),
    [.receive 0 1], List.replicate 12 (.run 1 none), [.receive 1 0],
    List.replicate 13 (.run 0 none)].flatten

theorem run_lateItem :
    ((system 0 2).run (Puts 0 2) (start 2 Unit ℤ) lateItem).any (fun s =>
      decide ((s.proc 0).log.out = [35])) = true := by
  decide +kernel

theorem counting_safe_lateItem :
    ∃ s : State 2 Unit ℤ,
      (system 0 2).run (Puts 0 2) (start 2 Unit ℤ) lateItem = some s ∧
      (s.proc 0).log.out = [35] ∧ (s.counted : Int) = 2 ∧ (s.proc 0).tls.nreduced ≤ 2 ∧
      (s.proc 1).log.fired ≤ 0 ∧ (s.proc 0).log.out.length ≤ 1 := by
  obtain ⟨s, isRun, isOut⟩ := (Option.any_eq_true ..).mp run_lateItem
  have isOut := of_decide_eq_true isOut
  obtain ⟨-, bounds, atMost, all⟩ :=
    counting_safe (by decide) (Reached.run (.initial rfl) lateItem isRun)
  have nonempty : (s.proc 0).log.out ≠ [] := isOut ▸ List.cons_ne_nil 35 []
  exact ⟨s, isRun, isOut, (all (.inr nonempty)).1, (bounds 0).2.1, (atMost 1).1, (atMost 0).2⟩

end CnC.Reduce
