import CnC.Item.GetCount

/-!
# Garbage collection at the owner

The owner erases an item when a decrement brings its count to zero.  Decrements
which arrive before the item are recorded in a placeholder and merged into the
get-count when the item is inserted, and then the count is not tested.  So an
item stays in the table of its owner if all its decrements were applied before
it was inserted; `erased_at_owner` proves that it is erased otherwise.
-/

namespace CnC.Item

open Network Transition

universe u

variable {n : Nat} {Tag Item : Type u} [DecidableEq Tag]

/-- The item is inserted at its owner after all its decrements have been applied
there. -/
def Exhausted (tuner : Tuner n Tag) (tag : Tag) (s : State n Tag Item)
    (action : Action n Tag Item) : Prop :=
  match storing s action with
  | some (pid, other, _, owner) =>
      other = tag ∧ owner = pid ∧ tuner.getCount tag ≤ s.history.applied pid tag
  | none => False

instance (tuner : Tuner n Tag) (tag : Tag) (s : State n Tag Item) (action : Action n Tag Item) :
    Decidable (Exhausted tuner tag s action) := by
  unfold Exhausted
  split <;> infer_instance

/-- The tag is put at most once, and its item reaches the owner before the last
decrement. -/
def InTime (tuner : Tuner n Tag) (tag : Tag) (s : State n Tag Item)
    (action : Action n Tag Item) : Prop :=
  PutOnce tag s action ∧ ¬ Exhausted tuner tag s action

instance (tuner : Tuner n Tag) (tag : Tag) (s : State n Tag Item) (action : Action n Tag Item) :
    Decidable (InTime tuner tag s action) :=
  inferInstanceAs (Decidable (_ ∧ _))

/-- The entry of the owner, while no more decrements have been applied than the
get-count `g` allows. -/
structure AtOwner (g : ℤ) (tag : Tag) (pid : Fin n) (s : State n Tag Item) : Prop where
  waiting : (pid, tag) ∉ s.onPuts → ((s.proc pid).entry tag).item = none ∧
    ((s.history.applied pid tag : ℤ) < g →
      ((s.proc pid).entry tag).recorded = -(s.history.applied pid tag : ℤ))
  live : (pid, tag) ∈ s.onPuts → (s.history.applied pid tag : ℤ) < g →
    ((s.proc pid).entry tag).item ≠ none ∧
      ((s.proc pid).entry tag).recorded = g - s.history.applied pid tag
  dead : (pid, tag) ∈ s.onPuts → (s.history.applied pid tag : ℤ) = g →
    ((s.proc pid).entry tag).item = none

variable {g : ℤ} {tag : Tag} {pid : Fin n} {s next : State n Tag Item}

omit [DecidableEq Tag] in
theorem AtOwner.congr (atOwner : AtOwner g tag pid s)
    (sameItem : ((next.proc pid).entry tag).item = ((s.proc pid).entry tag).item)
    (sameCount : ((next.proc pid).entry tag).recorded = ((s.proc pid).entry tag).recorded)
    (sameOnPuts : (pid, tag) ∈ next.onPuts ↔ (pid, tag) ∈ s.onPuts)
    (sameApplied : next.history.applied pid tag = s.history.applied pid tag) :
    AtOwner g tag pid next := by
  refine ⟨?_, ?_, ?_⟩ <;> rw [sameOnPuts, sameApplied, sameItem]
  · rw [sameCount]
    exact atOwner.waiting
  · rw [sameCount]
    exact atOwner.live
  · exact atOwner.dead

theorem entry_apply_other {process changed : Process n Tag Item} {other : Tag} {p : Fin n}
    (kept : Kept (s.proc p) process) {entry : Option (Entry n Item)}
    (table : changed.table = Function.update process.table other entry)
    (different : ¬ (p = pid ∧ other = tag)) :
    ((Function.update s.proc p changed pid).entry tag).item = ((s.proc pid).entry tag).item ∧
      ((Function.update s.proc p changed pid).entry tag).recorded =
        ((s.proc pid).entry tag).recorded := by
  by_cases samePid : pid = p
  · subst samePid
    have otherTag : tag ≠ other := fun same => different ⟨rfl, same.symm⟩
    have unchanged : changed.entry tag = process.entry tag := by
      simp [Process.entry, table, otherTag]
    rw [Function.update_self, unchanged]
    exact ⟨kept.item tag, kept.recorded tag⟩
  · rw [Function.update_of_ne samePid]
    exact ⟨rfl, rfl⟩

theorem applied_decrement_other {history : History n Tag Item} {p : Fin n} {other : Tag}
    {gone : Bool} (different : ¬ (p = pid ∧ other = tag)) :
    (history.decrement p other gone).applied pid tag = history.applied pid tag := by
  by_cases samePid : pid = p
  · subst samePid
    have otherTag : tag ≠ other := fun same => different ⟨rfl, same.symm⟩
    simp [History.decrement, otherTag]
  · simp [History.decrement, samePid]

theorem applied_decrement {history : History n Tag Item} {gone : Bool} :
    (history.decrement pid tag gone).applied pid tag = history.applied pid tag + 1 := by
  simp [History.decrement]

/-- The item arrives at its owner, with fewer decrements recorded than its
get-count. -/
theorem AtOwner.insert {tuner : Tuner n Tag} (atOwner : AtOwner g tag pid s)
    (counted : tuner.getCount tag = g) (positive : 0 < g)
    (fewer : (s.history.applied pid tag : ℤ) < g) {process : Process n Tag Item} {item : Item}
    {entry : Entry n Item} (kept : Kept (s.proc pid) process)
    (absent : (process.entry tag).item = none) (present : entry.item = some item)
    (count : entry.getCount = if tuner.getCount tag = noGetCount then noGetCount else
      ((process.entry tag).setOrIncrementGetCount (tuner.getCount tag)).1.getCount)
    (proc : next.proc pid = process.setEntry tag (some entry))
    (inserted : (pid, tag) ∈ next.onPuts)
    (sameApplied : next.history.applied = s.history.applied) : AtOwner g tag pid next := by
  have missing : (pid, tag) ∉ s.onPuts := by
    intro old
    apply (atOwner.live old fewer).1
    rw [← kept.item, absent]
  have recordedBefore := (atOwner.waiting missing).2 fewer
  rw [← kept.recorded] at recordedBefore
  have notNone : g ≠ noGetCount := by
    unfold noGetCount
    omega
  rw [counted, if_neg notNone] at count
  have recorded : entry.recorded = g - s.history.applied pid tag := by
    have limit : g ≤ intMax := counted ▸ tuner.getCount_le tag
    have lower : unsetGetCount < (process.entry tag).recorded + g := by
      rw [recordedBefore]
      unfold unsetGetCount
      omega
    have upper : (process.entry tag).recorded + g ≤ intMax := by
      omega
    have merged := (process.entry tag).recorded_setOrIncrementGetCount lower upper
    rw [Entry.recorded, count, ← Entry.recorded, merged, recordedBefore]
    ring
  have same : (next.proc pid).entry tag = entry := by
    rw [proc, entry_setEntry, if_pos rfl]
  refine ⟨fun absentNow => absurd inserted absentNow, ?_, ?_⟩
  · intro _ _
    rw [same, sameApplied]
    exact ⟨by simp [present], recorded⟩
  · intro _ exhausted
    rw [sameApplied] at exhausted
    omega

theorem AtOwner.record {tuner : Tuner n Tag} (atOwner : AtOwner g tag pid s)
    (counted : tuner.getCount tag = g) {process : Process n Tag Item} {entry : Entry n Item}
    (kept : Kept (s.proc pid) process) (sameItem : entry.item = (process.entry tag).item)
    (sameCount : entry.recorded = (process.entry tag).recorded) (notOne : entry.recorded ≠ 1)
    (proc : next.proc pid = process.setEntry tag (some (entry.setOrIncrementGetCount (-1)).1))
    (sameOnPuts : next.onPuts = s.onPuts)
    (applied : next.history.applied pid tag = s.history.applied pid tag + 1) :
    AtOwner g tag pid next := by
  have limit : g ≤ intMax := counted ▸ tuner.getCount_le tag
  have same : (next.proc pid).entry tag = (entry.setOrIncrementGetCount (-1)).1 := by
    rw [proc, entry_setEntry, if_pos rfl]
  rw [kept.item] at sameItem
  rw [kept.recorded] at sameCount
  have decremented : unsetGetCount < entry.recorded + -1 → entry.recorded ≤ g →
      (entry.setOrIncrementGetCount (-1)).1.recorded = entry.recorded + -1 := fun lower upper =>
    Entry.recorded_setOrIncrementGetCount entry lower (by omega)
  unfold intMax unsetGetCount at *
  refine ⟨?_, ?_, ?_⟩ <;>
    rw [same, applied, sameOnPuts, Entry.setOrIncrementGetCount_item, sameItem]
  · intro missing
    obtain ⟨absent, recorded⟩ := atOwner.waiting missing
    refine ⟨absent, fun fewer => ?_⟩
    have before := recorded (by omega)
    rw [decremented (by omega) (by omega), sameCount, before]
    push_cast
    ring
  · intro inserted fewer
    obtain ⟨present, recorded⟩ := atOwner.live inserted (by omega)
    refine ⟨present, ?_⟩
    rw [decremented (by omega) (by omega), sameCount, recorded]
    push_cast
    ring
  · intro inserted exhausted
    have before := (atOwner.live inserted (by omega)).2
    omega

theorem AtOwner.gone (atOwner : AtOwner g tag pid s) {process : Process n Tag Item}
    (erasedSer : Option (List Tag)) (kept : Kept (s.proc pid) process)
    (usedUp : (process.entry tag).recorded = 1)
    (proc : next.proc pid = { process.setEntry tag none with erasedSer := erasedSer })
    (sameOnPuts : next.onPuts = s.onPuts)
    (applied : next.history.applied pid tag = s.history.applied pid tag + 1) :
    AtOwner g tag pid next := by
  have same : (next.proc pid).entry tag = .placeholder := by
    rw [proc]
    simp [Process.entry, Process.setEntry]
  have absent : ((next.proc pid).entry tag).item = none := by rw [same]; rfl
  rw [kept.recorded] at usedUp
  refine ⟨?_, ?_, fun _ _ => absent⟩ <;> rw [applied, sameOnPuts]
  · intro missing
    refine ⟨absent, fun fewer => ?_⟩
    have before := (atOwner.waiting missing).2 (by omega)
    omega
  · intro inserted fewer
    have before := (atOwner.live inserted (by omega)).2
    omega

/-- The entry for the tag at the process which owns it, or will own it. -/
def OwnerCounts (g : ℤ) (tag : Tag) (s : State n Tag Item) : Prop :=
  ∀ pid, s.history.owner tag = none ∨ s.history.owner tag = some pid → AtOwner g tag pid s

omit [DecidableEq Tag] in
theorem ownerCounts_start : OwnerCounts g tag (start n Tag Item) := by
  intro pid _
  constructor <;> simp [start, Process.entry, Entry.placeholder, Entry.recorded]

omit [DecidableEq Tag] in
theorem OwnerCounts.flush (ownerCounts : OwnerCounts g tag s) (flush : Flush s next) :
    OwnerCounts g tag next := by
  intro pid assigned
  rw [flush.history.1] at assigned
  apply (ownerCounts pid assigned).congr
  · rw [flush.entry]
  · rw [flush.entry]
  · rw [flush.history.2]
  · rw [flush.history.1]

theorem Origin.applied {s₀ : State n Tag Item} {p : Fin n} {other : Tag}
    (origin : Origin s p other s₀) :
    s₀.history.applied = s.history.applied ∧ s₀.onPuts = s.onPuts := by
  cases origin <;> exact ⟨rfl, rfl⟩

theorem OwnerCounts.effect {tuner : Tuner n Tag} {action : Action n Tag Item}
    (ownerCounts : OwnerCounts g tag s) (sound : Sound tag s)
    (counted : tuner.getCount tag = g) (positive : 0 < g) (once : PutOnce tag s action)
    (inTime : ¬ Exhausted tuner tag s action) (effect : Effect tuner s action next) :
    OwnerCounts g tag next := by
  intro pid assigned
  cases effect with
  | @quiet s₀ p process sent onPuts history pops kept plain called same =>
      obtain ⟨sameProc, -, -⟩ := pops.same
      have before := ownerCounts pid (same.owner ▸ assigned)
      apply before.congr
      · simpa [State.apply, sameProc] using (kept.update pid).item tag
      · simpa [State.apply, sameProc] using (kept.update pid).recorded tag
      · rcases called with rfl | ⟨other, uncounted, rfl⟩
        · exact Iff.rfl
        · have different : tag ≠ other := by
            rintro rfl
            omega
          simp [different]
      · simp [same.applied]
  | @put p process other item o sent isPut kept plain =>
      have before : s.history.owner tag = none ∨ s.history.owner tag = some pid := by
        by_cases same : other = tag
        · subst same
          rw [isPut] at once
          exact .inl (once rfl)
        · simpa [History.assign, Ne.symm same] using assigned
      exact (ownerCounts pid before).congr ((kept.update pid).item tag)
        ((kept.update pid).recorded tag) Iff.rfl rfl
  | @insert s₀ p process other item o sent entry pops stores arriving kept absent present _
      count _ plain =>
      obtain ⟨sameProc, sameHistory, -⟩ := pops.same
      simp only [State.apply, sameHistory] at assigned
      by_cases here : p = pid ∧ other = tag
      · obtain ⟨rfl, rfl⟩ := here
        obtain ⟨isOwner, -⟩ := sound.ofArriving arriving
        rw [isOwner] at assigned
        obtain rfl : o = p := by simpa using assigned
        rw [if_pos rfl] at count
        have fewer : (s.history.applied o other : ℤ) < g := by
          by_contra notFewer
          apply inTime
          rw [Exhausted, stores]
          exact ⟨rfl, rfl, by omega⟩
        exact (ownerCounts o (.inr isOwner)).insert counted positive fewer kept absent present
          count (by simp [State.apply]) (by simp) (by simp [State.apply, sameHistory])
      · apply (ownerCounts pid assigned).congr
        · simpa [State.apply, sameProc] using (entry_apply_other kept rfl here).1
        · simpa [State.apply, sameProc] using (entry_apply_other kept rfl here).2
        · have different : (pid, tag) ≠ (p, other) := by
            rintro ⟨⟩
            exact here ⟨rfl, rfl⟩
          dsimp only
          split
          · rw [List.mem_cons, or_iff_right different]
          · rfl
        · simp [State.apply, sameHistory]
  | @record s₀ p process other entry origin kept sameItem _ sameCount notOne =>
      obtain ⟨sameOwner, -, sameProc⟩ := origin.history tag
      obtain ⟨sameApplied, sameOnPuts⟩ := origin.applied
      have before := ownerCounts pid (by simpa [History.decrement, sameOwner] using assigned)
      by_cases here : p = pid ∧ other = tag
      · obtain ⟨rfl, rfl⟩ := here
        exact before.record counted kept sameItem sameCount notOne (by simp [State.apply])
          sameOnPuts (by simp [applied_decrement, sameApplied])
      · apply before.congr
        · simpa [State.apply, sameProc] using (entry_apply_other kept rfl here).1
        · simpa [State.apply, sameProc] using (entry_apply_other kept rfl here).2
        · simp [State.apply, sameOnPuts]
        · simp [applied_decrement_other here, sameApplied]
  | @gone s₀ p process other erasedSer origin kept usedUp noted =>
      obtain ⟨sameOwner, -, sameProc⟩ := origin.history tag
      obtain ⟨sameApplied, sameOnPuts⟩ := origin.applied
      have before := ownerCounts pid (by simpa [History.decrement, sameOwner] using assigned)
      by_cases here : p = pid ∧ other = tag
      · obtain ⟨rfl, rfl⟩ := here
        exact before.gone erasedSer kept usedUp (by simp [State.apply]) sameOnPuts
          (by simp [applied_decrement, sameApplied])
      · apply before.congr
        · simpa [State.apply, sameProc] using (entry_apply_other kept rfl here).1
        · simpa [State.apply, sameProc] using (entry_apply_other kept rfl here).2
        · simp [State.apply, sameOnPuts]
        · simp [applied_decrement_other here, sameApplied]
  | @collect p other o numgc owned negative counts =>
      have before := ownerCounts pid assigned
      by_cases here : p = pid ∧ other = tag
      · obtain ⟨rfl, rfl⟩ := here
        have present : ((s.proc p).entry other).item ≠ none := by
          have known := (sound.ofProcess p).owned
          rw [owned] at known
          intro absent
          rw [absent] at known
          cases known
        have inserted : (p, other) ∈ s.onPuts := by
          by_contra missing
          exact present (before.waiting missing).1
        constructor
        · exact fun missing => absurd inserted missing
        · intro _ fewer
          have recorded := (before.live inserted fewer).2
          simp only [State.apply] at fewer
          omega
        · intro _ exhausted
          exact absurd (before.dead inserted exhausted) present
      · exact before.congr (entry_apply_other (.refl (s.proc p)) rfl here).1
          (entry_apply_other (.refl (s.proc p)) rfl here).2 Iff.rfl rfl
  | @erase source target other tags enterSafe rest head =>
      have before := ownerCounts pid assigned
      by_cases here : target = pid ∧ other = tag
      · obtain ⟨rfl, rfl⟩ := here
        have erases := sound.ofMessage (head ▸ List.mem_cons_self :
          Msg.erase (other :: tags) enterSafe ∈ s.chan source target)
        obtain ⟨isOwner, different⟩ := erases List.mem_cons_self
        have assignedBefore : s.history.owner other = none ∨
          s.history.owner other = some target := assigned
        simp [isOwner, different] at assignedBefore
      · exact before.congr (entry_apply_other (.refl (s.proc target)) rfl here).1
          (entry_apply_other (.refl (s.proc target)) rfl here).2 Iff.rfl rfl

theorem ownerCounts_of_reached [DecidableEq Item] {tuner : Tuner n Tag}
    (positive : 0 < tuner.getCount tag)
    (reached : Reached (system tuner) (InTime tuner tag) s) :
    OwnerCounts (tuner.getCount tag) tag s := by
  refine Reached.invariant (OwnerCounts (tuner.getCount tag) tag) ?_ ?_ reached
  · rintro _ rfl
    exact ownerCounts_start
  · intro before action next reachedBefore ownerCounts allowed stepped
    obtain ⟨middle, effect, flush⟩ := effect_of_step stepped
    have sound : Sound tag before :=
      sound_of_reached (reachedBefore.weaken fun _ _ both => both.1)
    exact (ownerCounts.effect sound rfl positive allowed.1 allowed.2 effect).flush flush

/-- In every run in which the tag is put at most once and its item is never
inserted at the owner after its last decrement there: when all decrements have
been applied at the owner and the item has been put there, the owner does not
hold it. -/
theorem erased_at_owner [DecidableEq Item] {tuner : Tuner n Tag}
    (positive : 0 < tuner.getCount tag)
    (reached : Reached (system tuner) (InTime tuner tag) s)
    (isOwner : s.history.owner tag = some pid) (processed : (pid, tag) ∈ s.onPuts)
    (decremented : (s.history.applied pid tag : ℤ) = tuner.getCount tag) :
    ((s.proc pid).entry tag).item = none := by
  have ownerCounts := ownerCounts_of_reached positive reached
  exact (ownerCounts pid (.inr isOwner)).dead processed decremented

/-- Process 0 puts item 7 with get-count 1; its owner receives it, and a step
which got it commits there. -/
def putAndConsume : List (Action 3 Nat Nat) :=
  [.put 0 7 42, .receive 0 1, .get 1 7, .commit 1 7]

theorem erased_at_owner_putAndConsume :
    ∃ s : State 3 Nat Nat,
      (system (twoConsumers 1 (by decide))).run
          (InTime (twoConsumers 1 (by decide)) 7) (start 3 Nat Nat) putAndConsume = some s ∧
        s.history.owner 7 = some 1 ∧ (1, 7) ∈ s.onPuts ∧ s.history.applied 1 7 = 1 ∧
        ((s.proc 1).entry 7).item = none := by
  refine ⟨_, rfl, rfl, by decide, rfl, ?_⟩
  have reached : Reached (system (twoConsumers 1 (by decide)))
      (InTime (twoConsumers 1 (by decide)) 7) _ :=
    Reached.run (.initial rfl) putAndConsume rfl
  exact erased_at_owner (by decide) reached rfl (by decide) rfl

/-- Item 7 has get-count 2.  Two gets on process 2 are committed and sent to the
owner, process 1, which handles them before the item. -/
def decrementsFirst : List (Action 3 Nat Nat) :=
  [.put 0 7 42, .receive 0 2, .get 2 7, .commit 2 7, .collect 2 7, .get 2 7, .commit 2 7,
    .collect 2 7, .receive 2 1, .receive 2 1, .receive 2 1, .receive 0 1]

/-- The owner has applied both decrements and has put the item, and holds it. -/
theorem kept_at_owner :
    ∃ s : State 3 Nat Nat, Reached (system (twoConsumers 2 (by decide))) (PutOnce 7) s ∧
      s.history.owner 7 = some 1 ∧ (1, 7) ∈ s.onPuts ∧ s.history.applied 1 7 = 2 ∧
      ((s.proc 1).entry 7).item = some 42 :=
  ⟨_, Reached.run (.initial rfl) decrementsFirst rfl, rfl, by decide, rfl, rfl⟩

end CnC.Item
