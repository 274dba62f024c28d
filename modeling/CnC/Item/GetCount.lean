import CnC.Item.Ownership

/-!
# Conservation of get-counts

A get of a committed execution is recorded as a decrement in the table of the
process, moves from there to the message in preparation for the owner, to the
network, and finally to the table of the owner.  As long as fewer gets are
committed than the get-count of the item, none of them is lost and none is
applied twice.
-/

namespace CnC.Item

open Network Transition

universe u

variable {n : Nat} {Tag Item : Type u} [DecidableEq Tag]

/-- The occurrences of a tag in a `GET_COUNTS` message. -/
def Msg.counts (tag : Tag) : Msg n Tag Item → ℤ
  | .getCounts _ tags _ => tags.count tag
  | _ => 0

omit [DecidableEq Tag] in
/-- The decrements recorded in the table of a process; at the owner, the item
brings the get-count `g`. -/
def Process.spent (g : ℤ) (owner : Fin n) (tag : Tag) (pid : Fin n)
    (process : Process n Tag Item) : ℤ :=
  (if pid = owner ∧ (process.entry tag).item.isSome then g else 0) -
    (process.entry tag).recorded

/-- The occurrences of a tag in the messages in preparation. -/
def Process.unsent (tag : Tag) (process : Process n Tag Item) : ℤ :=
  ∑ receiver, (((process.sers receiver).getD []).count tag : ℤ)

def Process.held (g : ℤ) (owner : Fin n) (tag : Tag) (pid : Fin n)
    (process : Process n Tag Item) : ℤ :=
  process.spent g owner tag pid + process.unsent tag

/-- Every committed get is recorded, collected or on its way, and the item has
not been erased. -/
structure Conserved (g : ℤ) (owner : Fin n) (tag : Tag) (s : State n Tag Item) : Prop where
  balance : (s.history.committed tag : ℤ) =
    total (Process.held g owner tag) (Msg.counts tag) s.proc s.chan
  nonneg : ∀ pid, 0 ≤ (s.proc pid).spent g owner tag pid
  spared : ∀ pid, tag ∉ (s.proc pid).erasedSer.getD []
  sparedMsg : ∀ i j tags enterSafe, .erase tags enterSafe ∈ s.chan i j → tag ∉ tags

variable {g : ℤ} {owner : Fin n} {tag : Tag} {s : State n Tag Item}

theorem Msg.counts_nonneg (message : Msg n Tag Item) : 0 ≤ message.counts tag := by
  cases message <;> simp [Msg.counts]

theorem Msg.counts_of_tags {message : Msg n Tag Item} (none : message.tags = []) :
    message.counts tag = 0 := by
  cases message with
  | getCounts pid tags enterSafe =>
      obtain rfl : tags = [] := none
      rfl
  | _ => rfl

theorem Process.unsent_nonneg (process : Process n Tag Item) : 0 ≤ process.unsent tag :=
  Finset.sum_nonneg fun _ _ => Int.natCast_nonneg _

/-- What one process has recorded and what is on its way is part of the
committed gets. -/
theorem Conserved.spent_add_weight_le (conserved : Conserved g owner tag s) (pid : Fin n) :
    (s.proc pid).spent g owner tag pid + weight (Msg.counts tag) s.chan ≤
      s.history.committed tag := by
  have nonneg : ∀ p, 0 ≤ (s.proc p).held g owner tag p := fun p =>
    add_nonneg (conserved.nonneg p) (Process.unsent_nonneg _)
  have single : (s.proc pid).held g owner tag pid ≤ ∑ p, (s.proc p).held g owner tag p :=
    Finset.single_le_sum (fun p _ => nonneg p) (Finset.mem_univ pid)
  have unsent : 0 ≤ (s.proc pid).unsent tag := Process.unsent_nonneg _
  have balance := conserved.balance
  simp only [total, Process.held] at balance single
  omega

theorem weight_counts_nonneg {channels : Channels (Fin n) (Msg n Tag Item)} :
    0 ≤ weight (Msg.counts tag) channels :=
  weight_nonneg (fun message => message.counts_nonneg) channels

/-- One process changes and sends messages: what it holds and sends has to make
up for the change of the committed gets. -/
theorem Conserved.apply (conserved : Conserved g owner tag s) {next s₀ : State n Tag Item}
    {pid : Fin n} {process : Process n Tag Item} {sent : Sent n Tag Item}
    (proc : next.proc = Function.update s.proc pid process)
    (chan : next.chan = s₀.chan.send pid sent)
    (balance : (next.history.committed tag : ℤ) - s.history.committed tag =
      process.held g owner tag pid - (s.proc pid).held g owner tag pid +
        (weight (Msg.counts tag) s₀.chan - weight (Msg.counts tag) s.chan) +
        (sent.map fun pair => pair.2.counts tag).sum)
    (nonneg : 0 ≤ process.spent g owner tag pid) (spared : tag ∉ process.erasedSer.getD [])
    (popped : ∀ i j tags enterSafe, .erase tags enterSafe ∈ s₀.chan i j → tag ∉ tags)
    (sparedMsg : ∀ target tags enterSafe, (target, .erase tags enterSafe) ∈ sent → tag ∉ tags) :
    Conserved g owner tag next where
  balance := by
    have before := conserved.balance
    rw [proc, chan, total_apply]
    simp only [total] at before ⊢
    omega
  nonneg p := by
    rw [proc]
    by_cases same : p = pid
    · subst same
      simpa using nonneg
    · simpa [same] using conserved.nonneg p
  spared p := by
    rw [proc]
    by_cases same : p = pid
    · subst same
      simpa using spared
    · simpa [same] using conserved.spared p
  sparedMsg i j tags enterSafe membership := by
    rw [chan] at membership
    rcases Channels.mem_send.mp membership with old | ⟨rfl, new⟩
    · exact popped i j tags enterSafe old
    · exact sparedMsg j tags enterSafe new

theorem Pops.weight {s₀ : State n Tag Item} (pops : Pops s s₀) :
    weight (Msg.counts tag) s₀.chan = weight (Msg.counts tag) s.chan := by
  cases pops with
  | none => rfl
  | head head noTags =>
      have tail := weight_tail (Msg.counts tag) s.chan head
      rw [Msg.counts_of_tags noTags] at tail
      simpa [State.setQueue] using tail

omit [DecidableEq Tag] in
theorem Pops.mem {s₀ : State n Tag Item} (pops : Pops s s₀) {i j : Fin n}
    {message : Msg n Tag Item} (membership : message ∈ s₀.chan i j) :
    message ∈ s.chan i j := by
  cases pops with
  | none => exact membership
  | head head _ => exact Channels.mem_of_mem_setQueue_tail head membership

theorem Sent.Plain.sum_counts {sent : Sent n Tag Item} (plain : Sent.Plain sent) :
    (sent.map fun pair => pair.2.counts tag).sum = 0 := by
  apply List.sum_eq_zero
  intro count membership
  obtain ⟨⟨target, message⟩, sent, rfl⟩ := List.mem_map.mp membership
  exact Msg.counts_of_tags (plain target message sent)

omit [DecidableEq Tag] in
theorem Sent.Plain.not_erase {sent : Sent n Tag Item} (plain : Sent.Plain sent) {target : Fin n}
    {tags : List Tag} {enterSafe : Bool} (membership : (target, .erase tags enterSafe) ∈ sent) :
    tag ∉ tags := by
  have none : tags = [] := plain _ _ membership
  simp [none]

omit [DecidableEq Tag] in
theorem Kept.spent {process next : Process n Tag Item} (kept : Kept process next) (pid : Fin n) :
    next.spent g owner tag pid = process.spent g owner tag pid := by
  simp only [Process.spent, kept.item, kept.recorded]

theorem Kept.held {process next : Process n Tag Item} (kept : Kept process next) (pid : Fin n) :
    next.held g owner tag pid = process.held g owner tag pid := by
  simp only [Process.held, kept.spent, Process.unsent, kept.sers]

theorem Conserved.quiet (conserved : Conserved g owner tag s) {s₀ next : State n Tag Item}
    {pid : Fin n} {process : Process n Tag Item} {sent : Sent n Tag Item} (pops : Pops s s₀)
    (kept : Kept (s.proc pid) process) (plain : Sent.Plain sent)
    (proc : next.proc = Function.update s.proc pid process)
    (chan : next.chan = s₀.chan.send pid sent)
    (sameCommitted : next.history.committed = s.history.committed) :
    Conserved g owner tag next := by
  apply conserved.apply proc chan
  · rw [sameCommitted, kept.held, pops.weight, plain.sum_counts]
    ring
  · rw [kept.spent]
    exact conserved.nonneg pid
  · rw [kept.erasedSer]
    exact conserved.spared pid
  · intro i j tags enterSafe membership
    exact conserved.sparedMsg i j tags enterSafe (pops.mem membership)
  · intro target tags enterSafe membership
    exact plain.not_erase membership

/-- A bound for the counts, which keeps them away from the value which stands
for an unset count. -/
theorem Conserved.le_recorded (conserved : Conserved g owner tag s) (positive : 0 < g)
    (pid : Fin n) : weight (Msg.counts tag) s.chan - (s.history.committed tag : ℤ) ≤
      ((s.proc pid).entry tag).recorded := by
  have bound := conserved.spent_add_weight_le pid
  unfold Process.spent at bound
  split at bound <;> omega

theorem spent_setEntry_other {process : Process n Tag Item} {other : Tag}
    (different : tag ≠ other) (entry : Option (Entry n Item)) (pid : Fin n) :
    (process.setEntry other entry).spent g owner tag pid = process.spent g owner tag pid := by
  have same : (process.setEntry other entry).entry tag = process.entry tag := by
    simp [Process.entry, Process.setEntry, different]
  simp only [Process.spent, same]

theorem spent_setEntry {process : Process n Tag Item} {entry : Entry n Item} (pid : Fin n) :
    (process.setEntry tag (some entry)).spent g owner tag pid =
      (if pid = owner ∧ entry.item.isSome then g else 0) - entry.recorded := by
  simp only [Process.spent, entry_setEntry, if_true]

theorem Conserved.insert {tuner : Tuner n Tag} (conserved : Conserved g owner tag s)
    (counted : tuner.getCount tag = g) (positive : 0 < g)
    (fewer : (s.history.committed tag : ℤ) < g) {s₀ next : State n Tag Item} {pid o : Fin n}
    {process : Process n Tag Item} {sent : Sent n Tag Item} {other : Tag} {item : Item}
    {entry : Entry n Item} (pops : Pops s s₀) (kept : Kept (s.proc pid) process)
    (plain : Sent.Plain sent) (owned : other = tag → o = owner)
    (absent : (process.entry other).item = none) (present : entry.item = some item)
    (count : entry.getCount = if tuner.getCount other = noGetCount then noGetCount else
      ((process.entry other).setOrIncrementGetCount
        (if o = pid then tuner.getCount other else 0)).1.getCount)
    (proc : next.proc = Function.update s.proc pid (process.setEntry other (some entry)))
    (chan : next.chan = s₀.chan.send pid sent)
    (sameCommitted : next.history.committed = s.history.committed) :
    Conserved g owner tag next := by
  have spent : (process.setEntry other (some entry)).spent g owner tag pid =
      (s.proc pid).spent g owner tag pid := by
    by_cases same : tag = other
    · subst same
      obtain rfl := owned rfl
      have lower := conserved.le_recorded positive pid
      have inFlight : 0 ≤ weight (Msg.counts tag) s.chan := weight_counts_nonneg
      rw [← kept.recorded] at lower
      have limit : g ≤ intMax := counted ▸ tuner.getCount_le tag
      have notNone : g ≠ noGetCount := by
        unfold noGetCount
        omega
      rw [counted, if_neg notNone] at count
      have recorded : entry.recorded =
          (process.entry tag).recorded + if o = pid then g else 0 := by
        have upper := conserved.nonneg pid
        rw [← kept.spent, Process.spent, absent] at upper
        simp only [Option.isSome_none, Bool.false_eq_true, and_false, if_false] at upper
        rw [← Entry.recorded_setOrIncrementGetCount]
        · rw [Entry.recorded, Entry.recorded, count]
        · unfold unsetGetCount
          unfold intMax at limit
          split <;> omega
        · unfold intMax at limit ⊢
          split <;> omega
      rw [spent_setEntry, recorded, ← kept.spent, Process.spent, absent, present]
      by_cases own : pid = o
      · simp [own]
      · simp [own, Ne.symm own]
    · rw [spent_setEntry_other same, kept.spent]
  apply conserved.apply proc chan
  · have unsent : (process.setEntry other (some entry)).unsent tag =
        (s.proc pid).unsent tag := by
      simp only [Process.unsent, setEntry_sers, kept.sers]
    rw [sameCommitted, pops.weight, plain.sum_counts]
    simp only [Process.held, spent, unsent]
    ring
  · rw [spent]
    exact conserved.nonneg pid
  · rw [setEntry_erasedSer, kept.erasedSer]
    exact conserved.spared pid
  · intro i j tags enterSafe membership
    exact conserved.sparedMsg i j tags enterSafe (pops.mem membership)
  · intro target tags enterSafe membership
    exact plain.not_erase membership

theorem Origin.balance {s₀ : State n Tag Item} {pid : Fin n} {other : Tag}
    (origin : Origin s pid other s₀) (tag : Tag) :
    (s₀.history.committed tag : ℤ) - weight (Msg.counts tag) s₀.chan =
      s.history.committed tag - weight (Msg.counts tag) s.chan +
        if tag = other then 1 else 0 := by
  cases origin with
  | committed =>
      by_cases same : tag = other
      · subst same
        simp [History.commit]
        ring
      · simp [History.commit, same]
  | received head =>
      have replaced := weight_setQueue (Msg.counts tag) s.chan
      simp only [State.setQueue]
      rw [replaced, head]
      by_cases same : tag = other
      · subst same
        simp [Msg.counts]
        ring
      · simp [Msg.counts, same, List.count_cons_of_ne (Ne.symm same)]

/-- After the step, fewer than `g` gets are committed, so there was room for one
more decrement. -/
theorem Origin.room {s₀ : State n Tag Item} {pid : Fin n}
    (origin : Origin s pid tag s₀) (conserved : Conserved g owner tag s)
    (fewer : (s₀.history.committed tag : ℤ) < g) (p : Fin n) :
    (s.proc p).spent g owner tag p + 1 < g := by
  have bound := conserved.spent_add_weight_le p
  have balance := origin.balance tag
  rw [if_pos rfl] at balance
  have remaining : 0 ≤ weight (Msg.counts tag) s₀.chan := weight_counts_nonneg
  omega

theorem Origin.mem_erase {s₀ : State n Tag Item} {pid : Fin n} {other : Tag}
    (origin : Origin s pid other s₀) {i j : Fin n} {tags : List Tag} {enterSafe : Bool}
    (membership : .erase tags enterSafe ∈ s₀.chan i j) : .erase tags enterSafe ∈ s.chan i j := by
  cases origin with
  | committed => exact membership
  | received head =>
      rcases Channels.mem_setQueue membership with ⟨rfl, rfl, remaining⟩ | old
      · rw [head]
        rcases List.mem_cons.mp remaining with new | old
        · cases new
        · exact List.mem_cons_of_mem _ old
      · exact old

theorem Conserved.record {tuner : Tuner n Tag} (conserved : Conserved g owner tag s)
    (counted : tuner.getCount tag = g) (positive : 0 < g) {s₀ next : State n Tag Item}
    {pid : Fin n} {process : Process n Tag Item} {other : Tag} {entry : Entry n Item}
    (origin : Origin s pid other s₀) (kept : Kept (s.proc pid) process)
    (sameItem : entry.item = (process.entry other).item)
    (sameCount : entry.recorded = (process.entry other).recorded)
    (fewer : (next.history.committed tag : ℤ) < g)
    (proc : next.proc = Function.update s.proc pid
      (process.setEntry other (some (entry.setOrIncrementGetCount (-1)).1)))
    (chan : next.chan = s₀.chan.send pid [])
    (sameCommitted : next.history.committed = s₀.history.committed) :
    Conserved g owner tag next := by
  have spent : (process.setEntry other (some (entry.setOrIncrementGetCount (-1)).1)).spent
      g owner tag pid = (s.proc pid).spent g owner tag pid + if tag = other then 1 else 0 := by
    by_cases same : tag = other
    · subst same
      have room := origin.room conserved (sameCommitted ▸ fewer) pid
      have limit : g ≤ intMax := counted ▸ tuner.getCount_le tag
      have lower : unsetGetCount < entry.recorded + -1 := by
        rw [sameCount, kept.recorded]
        unfold Process.spent at room
        unfold unsetGetCount
        unfold intMax at limit
        split at room <;> omega
      have upper : entry.recorded + -1 ≤ intMax := by
        have spent := conserved.nonneg pid
        rw [sameCount, kept.recorded]
        unfold Process.spent at spent
        split at spent <;> omega
      rw [spent_setEntry, Entry.setOrIncrementGetCount_item,
        Entry.recorded_setOrIncrementGetCount entry lower upper, sameItem, sameCount, ← kept.spent,
        if_pos rfl, Process.spent]
      ring
    · rw [spent_setEntry_other same, kept.spent, if_neg same, add_zero]
  apply conserved.apply proc chan
  · have unsent : (process.setEntry other (some (entry.setOrIncrementGetCount (-1)).1)).unsent
        tag = (s.proc pid).unsent tag := by
      simp only [Process.unsent, setEntry_sers, kept.sers]
    have balance := origin.balance tag
    simp only [Process.held, spent, unsent, sameCommitted, List.map_nil, List.sum_nil]
    omega
  · rw [spent]
    have before := conserved.nonneg pid
    split <;> omega
  · rw [setEntry_erasedSer, kept.erasedSer]
    exact conserved.spared pid
  · intro i j tags enterSafe membership
    exact conserved.sparedMsg i j tags enterSafe (origin.mem_erase membership)
  · simp

theorem Conserved.ne_of_gone (conserved : Conserved g owner tag s) {s₀ : State n Tag Item}
    {pid : Fin n} {process : Process n Tag Item} {other : Tag}
    (origin : Origin s pid other s₀) (kept : Kept (s.proc pid) process)
    (usedUp : (process.entry other).recorded = 1)
    (fewer : (s₀.history.committed tag : ℤ) < g) : tag ≠ other := by
  rintro rfl
  have room := origin.room conserved fewer pid
  have nonneg := conserved.nonneg pid
  rw [kept.recorded] at usedUp
  unfold Process.spent at room nonneg
  split at room
  · omega
  · simp_all

theorem Conserved.gone (conserved : Conserved g owner tag s)
    {s₀ next : State n Tag Item} {pid : Fin n} {process : Process n Tag Item} {other : Tag}
    {erasedSer : Option (List Tag)} (origin : Origin s pid other s₀)
    (kept : Kept (s.proc pid) process) (usedUp : (process.entry other).recorded = 1)
    (noted : erasedSer = process.erasedSer ∨
      erasedSer = some (process.erasedSer.getD [] ++ [other]))
    (fewer : (next.history.committed tag : ℤ) < g)
    (proc : next.proc = Function.update s.proc pid
      { process.setEntry other none with erasedSer := erasedSer })
    (chan : next.chan = s₀.chan.send pid [])
    (sameCommitted : next.history.committed = s₀.history.committed) :
    Conserved g owner tag next := by
  have different := conserved.ne_of_gone origin kept usedUp (sameCommitted ▸ fewer)
  have spent : ({ process.setEntry other none with erasedSer := erasedSer } :
      Process n Tag Item).spent g owner tag pid = (s.proc pid).spent g owner tag pid := by
    rw [← kept.spent]
    exact spent_setEntry_other different none pid
  have unsent : ({ process.setEntry other none with erasedSer := erasedSer } :
      Process n Tag Item).unsent tag = (s.proc pid).unsent tag := by
    simp only [Process.unsent, setEntry_sers, kept.sers]
  have notHere := conserved.spared pid
  apply conserved.apply proc chan
  · have balance := origin.balance tag
    rw [if_neg different] at balance
    simp only [Process.held, spent, unsent, sameCommitted, List.map_nil, List.sum_nil]
    omega
  · rw [spent]
    exact conserved.nonneg pid
  · rw [← kept.erasedSer] at notHere
    rcases noted with rfl | rfl
    · exact notHere
    · simpa [different] using notHere
  · intro i j tags enterSafe membership
    exact conserved.sparedMsg i j tags enterSafe (origin.mem_erase membership)
  · simp

theorem held_getCountCollect {process : Process n Tag Item} {pid o : Fin n} {other : Tag}
    (negative : (process.entry other).recorded < 0)
    (counts : (process.entry other).recorded = (process.entry other).getCount) :
    (getCountCollect process other o).held g owner tag pid = process.held g owner tag pid := by
  have unsent : (getCountCollect process other o).unsent tag =
      process.unsent tag + if tag = other then -(process.entry other).recorded else 0 := by
    have moved := sum_update (fun _ ser => (((ser : Option (List Tag)).getD []).count tag : ℤ))
      process.sers o (some ((process.sers o).getD [] ++
        List.replicate (-(process.entry other).getCount).toNat other))
    simp only [Process.unsent, getCountCollect, moved, Option.getD_some, List.count_append,
      Nat.cast_add]
    by_cases same : tag = other
    · subst same
      rw [if_pos rfl, List.count_replicate_self, counts]
      omega
    · rw [if_neg same, List.count_replicate, if_neg (by simpa using Ne.symm same)]
      simp
  by_cases same : tag = other
  · subst same
    have spent : (getCountCollect process tag o).spent g owner tag pid =
        process.spent g owner tag pid + (process.entry tag).recorded := by
      have cleared : (getCountCollect process tag o).entry tag =
          (process.entry tag).setGetCount 0 := by
        simp [Process.entry, getCountCollect, Process.setEntry]
      have zero : ((process.entry tag).setGetCount 0).recorded = 0 := rfl
      simp only [Process.spent, cleared, zero, Entry.setGetCount_item]
      ring
    simp only [Process.held, spent, unsent, if_true]
    ring
  · have spent : (getCountCollect process other o).spent g owner tag pid =
        process.spent g owner tag pid := spent_setEntry_other same _ pid
    simp only [Process.held, spent, unsent, same, if_false, add_zero]

theorem spent_getCountCollect {process : Process n Tag Item} {pid o : Fin n} {other : Tag}
    (positive : 0 < g) (nonneg : 0 ≤ process.spent g owner tag pid) :
    0 ≤ (getCountCollect process other o).spent g owner tag pid := by
  by_cases same : tag = other
  · subst same
    have cleared : (getCountCollect process tag o).entry tag =
        (process.entry tag).setGetCount 0 := by
      simp [Process.entry, getCountCollect, Process.setEntry]
    have zero : ((process.entry tag).setGetCount 0).recorded = 0 := rfl
    rw [Process.spent, cleared, zero]
    split <;> omega
  · have spent : (getCountCollect process other o).spent g owner tag pid =
        process.spent g owner tag pid := spent_setEntry_other same _ pid
    rwa [spent]

theorem Conserved.collect (conserved : Conserved g owner tag s) (positive : 0 < g)
    {next : State n Tag Item} {pid o : Fin n} {other : Tag} {numgc : Nat}
    (negative : ((s.proc pid).entry other).recorded < 0)
    (counts : ((s.proc pid).entry other).recorded = ((s.proc pid).entry other).getCount)
    (proc : next.proc = Function.update s.proc pid
      { getCountCollect (s.proc pid) other o with numgc := numgc })
    (chan : next.chan = s.chan.send pid [])
    (sameCommitted : next.history.committed = s.history.committed) :
    Conserved g owner tag next := by
  have held : ({ getCountCollect (s.proc pid) other o with numgc := numgc } :
      Process n Tag Item).held g owner tag pid = (s.proc pid).held g owner tag pid :=
    held_getCountCollect negative counts
  apply conserved.apply proc chan
  · rw [sameCommitted, held]
    simp
  · change 0 ≤ (getCountCollect (s.proc pid) other o).spent g owner tag pid
    exact spent_getCountCollect positive (conserved.nonneg pid)
  · exact conserved.spared pid
  · exact conserved.sparedMsg
  · simp

theorem sum_sendGetcounts (process : Process n Tag Item) (self : Fin n) (enterSafe : Bool) :
    ((sendGetcounts self process enterSafe).2.map fun pair => pair.2.counts tag).sum =
      process.unsent tag := by
  rw [Process.unsent, Fin.sum_univ_def]
  unfold sendGetcounts
  induction List.finRange n with
  | nil => rfl
  | cons receiver rest inductionHypothesis =>
      rw [List.map_cons, List.sum_cons, ← inductionHypothesis]
      cases collected : process.sers receiver with
      | some tags => simp [collected, Msg.counts]
      | none =>
          by_cases final : enterSafe = true ∧ receiver ≠ self <;>
            simp [collected, Msg.counts, final]

theorem Conserved.flush (conserved : Conserved g owner tag s) {next : State n Tag Item}
    (flush : Flush s next) : Conserved g owner tag next := by
  cases flush with
  | none => exact conserved
  | counts pid enterSafe numgc =>
      have emptied : ({ (sendGetcounts pid (s.proc pid) enterSafe).1 with numgc := numgc } :
          Process n Tag Item).held g owner tag pid = (s.proc pid).spent g owner tag pid := by
        simp only [Process.held, Process.unsent, sendGetcounts, Option.getD_none, List.count_nil,
          Nat.cast_zero, Finset.sum_const_zero, add_zero]
        rfl
      refine conserved.apply rfl rfl ?_ ?_ ?_ ?_ ?_
      · rw [emptied, sum_sendGetcounts, Process.held]
        simp [State.apply]
      · exact conserved.nonneg pid
      · exact conserved.spared pid
      · exact conserved.sparedMsg
      · intro target tags safe membership
        cases mem_sendGetcounts membership
  | erased pid enterSafe =>
      refine conserved.apply rfl rfl ?_ ?_ ?_ ?_ ?_
      · have same : ({ s.proc pid with erasedSer := none } : Process n Tag Item).held g owner tag
            pid = (s.proc pid).held g owner tag pid := rfl
        rw [same]
        simp [State.apply, broadcast, Msg.counts, Function.comp_def]
      · exact conserved.nonneg pid
      · simp
      · exact conserved.sparedMsg
      · intro target tags safe membership
        obtain ⟨-, same⟩ := mem_broadcast.mp membership
        cases same
        exact conserved.spared pid

/-- Conservation with respect to the owner which the put assigns, or to any
process before the put. -/
def Balanced (g : ℤ) (tag : Tag) (s : State n Tag Item) : Prop :=
  ∀ owner, s.history.owner tag = none ∨ s.history.owner tag = some owner →
    (s.history.committed tag : ℤ) < g → Conserved g owner tag s

theorem Origin.history {s₀ : State n Tag Item} {pid : Fin n} {other : Tag}
    (origin : Origin s pid other s₀) (tag : Tag) :
    s₀.history.owner = s.history.owner ∧ s.history.committed tag ≤ s₀.history.committed tag ∧
      s₀.proc = s.proc := by
  cases origin with
  | committed =>
      refine ⟨rfl, ?_, rfl⟩
      by_cases same : tag = other
      · subst same
        simp [History.commit]
      · simp [History.commit, same]
  | received => exact ⟨rfl, le_rfl, rfl⟩

theorem Balanced.effect {tuner : Tuner n Tag} {action : Action n Tag Item}
    {next : State n Tag Item} (balanced : Balanced g tag s) (sound : Sound tag s)
    (counted : tuner.getCount tag = g) (positive : 0 < g) (once : PutOnce tag s action)
    (effect : Effect tuner s action next) : Balanced g tag next := by
  intro owner assigned fewer
  cases effect with
  | @quiet s₀ pid process sent onPuts history pops kept plain _ same =>
      obtain ⟨sameProc, -, -⟩ := pops.same
      have before := balanced owner (same.owner ▸ assigned) (same.committed ▸ fewer)
      exact before.quiet pops kept plain (by simp [State.apply, sameProc]) rfl same.committed
  | @put pid process other item o sent isPut kept plain =>
      have before : s.history.owner tag = none ∨ s.history.owner tag = some owner := by
        by_cases same : other = tag
        · subst same
          rw [isPut] at once
          exact .inl (once rfl)
        · simpa [History.assign, Ne.symm same] using assigned
      exact (balanced owner before fewer).quiet .none kept plain rfl rfl rfl
  | @insert s₀ pid process other item o sent entry pops _ arriving kept absent present _ count _
      plain =>
      obtain ⟨sameProc, sameHistory, -⟩ := pops.same
      simp only [State.apply, sameHistory] at assigned fewer
      have owned : other = tag → o = owner := by
        rintro rfl
        obtain ⟨isOwner, -⟩ := sound.ofArriving arriving
        rw [isOwner] at assigned
        simpa using assigned
      exact (balanced owner assigned fewer).insert counted positive fewer pops kept plain owned
        absent present count (by simp [State.apply, sameProc]) rfl
        (by simp [State.apply, sameHistory])
  | @record s₀ pid process other entry origin kept sameItem _ sameCount _ =>
      obtain ⟨sameOwner, more, sameProc⟩ := origin.history tag
      have before := balanced owner (by simpa [History.decrement, sameOwner] using assigned)
        (by simp only [History.decrement] at fewer; omega)
      exact before.record counted positive origin kept sameItem sameCount fewer
        (by simp [State.apply, sameProc]) rfl rfl
  | @gone s₀ pid process other erasedSer origin kept usedUp noted =>
      obtain ⟨sameOwner, more, sameProc⟩ := origin.history tag
      have before := balanced owner (by simpa [History.decrement, sameOwner] using assigned)
        (by simp only [History.decrement] at fewer; omega)
      refine before.gone origin kept usedUp (noted.imp And.right id) fewer
        (by simp [State.apply, sameProc]) rfl rfl
  | collect _ negative counts =>
      exact (balanced owner assigned fewer).collect positive negative counts rfl rfl rfl
  | @erase source target other tags enterSafe rest head =>
      have before := balanced owner assigned fewer
      have different : tag ≠ other ∧ tag ∉ tags := by
        have listed := before.sparedMsg source target (other :: tags) enterSafe
          (head ▸ List.mem_cons_self)
        simpa using listed
      have sameWeight : weight (Msg.counts tag)
          (s.setQueue source target (.erase tags enterSafe :: rest)).chan =
          weight (Msg.counts tag) s.chan := by
        have replaced := weight_setQueue (Msg.counts tag) s.chan source target
          (.erase tags enterSafe :: rest)
        simpa [State.setQueue, head, Msg.counts] using replaced
      have sameSpent : (eraseAlien (s.proc target) other).spent g owner tag target =
          (s.proc target).spent g owner tag target := spent_setEntry_other different.1 _ target
      have sent : ((s.setQueue source target (.erase tags enterSafe :: rest)).apply target
            (eraseAlien (s.proc target) other, [])).chan =
          (s.setQueue source target (.erase tags enterSafe :: rest)).chan.send target [] := rfl
      refine before.apply rfl sent ?_ ?_ ?_ ?_ ?_
      · have sameUnsent : (eraseAlien (s.proc target) other).unsent tag =
            (s.proc target).unsent tag := rfl
        simp only [sameWeight, Process.held, sameSpent, sameUnsent, History.erase,
          List.map_nil, List.sum_nil]
        ring
      · rw [sameSpent]
        exact before.nonneg target
      · exact before.spared target
      · intro i j tags' safe membership
        rcases Channels.mem_setQueue membership with ⟨rfl, rfl, remaining⟩ | old
        · rcases List.mem_cons.mp remaining with new | old
          · cases new
            exact different.2
          · exact before.sparedMsg i j tags' safe (head ▸ List.mem_cons_of_mem _ old)
        · exact before.sparedMsg i j tags' safe old
      · simp

theorem Balanced.flush {next : State n Tag Item} (balanced : Balanced g tag s)
    (flush : Flush s next) : Balanced g tag next := by
  intro owner assigned fewer
  rw [flush.history.1] at assigned fewer
  exact (balanced owner assigned fewer).flush flush

theorem conserved_start (owner : Fin n) : Conserved g owner tag (start n Tag Item) where
  balance := by
    simp [start, total, Process.held, Process.spent, Process.unsent, weight, Process.entry,
      Entry.placeholder, Entry.recorded]
  nonneg pid := by
    simp [start, Process.spent, Process.entry, Entry.placeholder, Entry.recorded]
  spared pid := by simp [start]
  sparedMsg i j tags enterSafe membership := by cases membership

/-- The decrements recorded at the owner: the negated count of the placeholder,
or what is missing from the get-count once the item is there. -/
def decrementsAtOwner (tuner : Tuner n Tag) (s : State n Tag Item) (owner : Fin n)
    (tag : Tag) : ℤ :=
  if ((s.proc owner).entry tag).item.isSome then
    tuner.getCount tag - ((s.proc owner).entry tag).recorded
  else -((s.proc owner).entry tag).recorded

/-- The negated counts of the other processes. -/
def decrementsElsewhere (s : State n Tag Item) (owner : Fin n) (tag : Tag) : ℤ :=
  ∑ pid ∈ Finset.univ.erase owner, -((s.proc pid).entry tag).recorded

def decrementsUnsent (s : State n Tag Item) (tag : Tag) : ℤ :=
  ∑ pid, (s.proc pid).unsent tag

/-- The occurrences of the tag in `GET_COUNTS` messages. -/
def decrementsInFlight (s : State n Tag Item) (tag : Tag) : ℤ :=
  weight (Msg.counts tag) s.chan

omit [DecidableEq Tag] in
theorem sum_spent (tuner : Tuner n Tag) (s : State n Tag Item) (owner : Fin n) (tag : Tag) :
    ∑ pid, (s.proc pid).spent (tuner.getCount tag) owner tag pid =
      decrementsAtOwner tuner s owner tag + decrementsElsewhere s owner tag := by
  rw [← Finset.add_sum_erase _ _ (Finset.mem_univ owner), decrementsElsewhere]
  congr 1
  · unfold Process.spent decrementsAtOwner
    split <;> simp_all
  · refine Finset.sum_congr rfl fun pid membership => ?_
    simp [Process.spent, Finset.ne_of_mem_erase membership]

/-- In every run in which the tag is put at most once, as long as fewer gets are
committed than its get-count, the committed gets are the decrements at the
owner, those recorded on other processes, those collected and those in flight,
and no other process than the owner has a positive count. -/
theorem get_counts_conserved [DecidableEq Item] {tuner : Tuner n Tag}
    (reached : Reached (system tuner) (PutOnce tag) s)
    (assigned : s.history.owner tag = none ∨ s.history.owner tag = some owner)
    (fewer : (s.history.committed tag : ℤ) < tuner.getCount tag) :
    (s.history.committed tag : ℤ) = decrementsAtOwner tuner s owner tag +
        decrementsElsewhere s owner tag + decrementsUnsent s tag + decrementsInFlight s tag ∧
      ∀ pid, pid ≠ owner → ((s.proc pid).entry tag).recorded ≤ 0 := by
  have balanced : Balanced (tuner.getCount tag) tag s := by
    by_cases positive : 0 < tuner.getCount tag
    · refine Reached.invariant (Balanced (tuner.getCount tag) tag) ?_ ?_ reached
      · rintro _ rfl owner - -
        exact conserved_start owner
      · intro before action next reachedBefore balanced once stepped
        obtain ⟨middle, effect, flush⟩ := effect_of_step stepped
        have sound := sound_of_reached reachedBefore
        exact (balanced.effect sound rfl positive once effect).flush flush
    · omega
  constructor
  · have balance := (balanced owner assigned fewer).balance
    simp only [total, Process.held, Finset.sum_add_distrib, sum_spent] at balance
    exact balance
  · intro pid different
    apply ((sound_of_reached reached).ofProcess pid).counted
    rintro isOwner
    rw [isOwner] at assigned
    simp [different] at assigned

/-- Items are consumed by the processes 1 and 2 of three, and process 1 owns
them.  Get-counts are sent when more than one has been collected. -/
def twoConsumers (g : ℤ) (limit : g ≤ intMax) : Tuner 3 Nat where
  consumedOn _ := .vector [.pid 1, .pid 2]
  producedOn _ _ := .unknown
  getCount _ := g
  getCount_le _ := limit
  enableGC := 1
  enableGC_pos := Nat.one_pos

/-- Process 0 puts item 7 with get-count 2; process 2 receives it, and a step
which got it commits there. -/
def putAndGet : List (Action 3 Nat Nat) :=
  [.put 0 7 42, .receive 0 2, .get 2 7, .commit 2 7, .collect 2 7]

theorem get_counts_conserved_putAndGet :
    ∃ s : State 3 Nat Nat,
      (system (twoConsumers 2 (by decide))).run (PutOnce 7) (start 3 Nat Nat) putAndGet =
          some s ∧
        s.history.owner 7 = some 1 ∧ s.history.committed 7 = 1 ∧
        decrementsAtOwner (twoConsumers 2 (by decide)) s 1 7 + decrementsElsewhere s 1 7 +
          decrementsUnsent s 7 + decrementsInFlight s 7 = 1 := by
  refine ⟨_, rfl, rfl, rfl, ?_⟩
  exact (get_counts_conserved (Reached.run (.initial rfl) putAndGet rfl) (.inr rfl)
    (by decide)).1.symm

end CnC.Item
