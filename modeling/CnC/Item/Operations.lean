import CnC.Item.Collection

/-!
# The operations of an item collection

For each operation on one process: what it can do to the table and which
messages it sends.
-/

namespace CnC.Item

open Network Transition

universe u

variable {n : Nat} {Tag Item : Type u} {process : Process n Tag Item} {self : Fin n}

theorem mem_broadcast {message other : Msg n Tag Item} {target : Fin n} :
    (target, other) ∈ broadcast self message ↔ target ≠ self ∧ other = message := by
  simp [broadcast, eq_comm]

theorem mem_deliver {tag : Tag} {item : Item} {recpnts : List (Fin n)} {owner target : Fin n}
    {message : Msg n Tag Item} :
    (target, message) ∈ deliver self tag item recpnts owner ↔
      target ∈ recpnts ∧ target ≠ self ∧ message = .deliver owner tag item := by
  simp only [deliver, List.mem_map, List.mem_filter, Prod.mk.injEq, decide_eq_true_eq]
  constructor
  · rintro ⟨receiver, ⟨listed, different⟩, rfl, rfl⟩
    exact ⟨listed, different, rfl⟩
  · rintro ⟨listed, different, rfl⟩
    exact ⟨target, ⟨listed, different⟩, rfl, rfl⟩

theorem mem_deliverToConsumers {tag : Tag} {item : Item} {consumers : Consumers n}
    {owner target : Fin n} {here : Bool} {sent : Sent n Tag Item} {message : Msg n Tag Item}
    (delivered : deliverToConsumers self tag item consumers = some (owner, here, sent))
    (membership : (target, message) ∈ sent) :
    target ≠ self ∧ (message = .deliver owner tag item ∨
      (message = .deliverToOwn tag item ∧ target = owner)) := by
  have single : ∀ consumer, deliverToConsumer self tag item consumer = (owner, here, sent) →
      target ≠ self ∧ (message = .deliver owner tag item ∨
        (message = .deliverToOwn tag item ∧ target = owner)) := by
    intro consumer equal
    cases consumer with
    | pid other =>
        simp only [deliverToConsumer] at equal
        split at equal
        · cases equal
          cases membership
        · rename_i different
          cases equal
          cases List.mem_singleton.mp membership
          exact ⟨different, .inr ⟨rfl, rfl⟩⟩
    | unknown => cases equal; cases membership
    | here => cases equal; cases membership
    | all =>
        cases equal
        obtain ⟨different, rfl⟩ := mem_broadcast.mp membership
        exact ⟨different, .inl rfl⟩
    | allOthers =>
        cases equal
        obtain ⟨different, rfl⟩ := mem_broadcast.mp membership
        exact ⟨different, .inl rfl⟩
  unfold deliverToConsumers at delivered
  split at delivered
  · exact single _ (Option.some.inj delivered)
  · cases delivered
    cases membership
  · exact single _ (Option.some.inj delivered)
  · split at delivered
    · cases delivered
      obtain ⟨_, different, rfl⟩ := mem_deliver.mp membership
      exact ⟨different, .inl rfl⟩
    · cases delivered

theorem mem_deliverPut {tag : Tag} {item : Item} {consumers : Consumers n}
    {owner target : Fin n} {here : Bool} {sent : Sent n Tag Item} {message : Msg n Tag Item}
    (delivered : deliverPut self tag item consumers = some (owner, here, sent))
    (membership : (target, message) ∈ sent) :
    target ≠ self ∧ (message = .deliver owner tag item ∨
      (message = .deliverToOwn tag item ∧ target = owner)) := by
  unfold deliverPut at delivered
  split at delivered
  · cases delivered
    cases membership
  · exact mem_deliverToConsumers delivered membership

theorem mem_putRequest {tag : Tag} {producer : Producer n} {target : Fin n}
    {message : Msg n Tag Item} (membership : (target, message) ∈ putRequest self tag producer) :
    target ≠ self ∧ message = .request tag self := by
  cases producer with
  | pid other =>
      simp only [putRequest] at membership
      split at membership
      · cases membership
      · rename_i different
        cases List.mem_singleton.mp membership
        exact ⟨different, rfl⟩
  | unknown => exact mem_broadcast.mp membership
  | here => cases membership

section Operations

variable [DecidableEq Tag] {tuner : Tuner n Tag}

theorem entry_setEntry (process : Process n Tag Item) (tag other : Tag) (entry : Entry n Item) :
    (process.setEntry tag (some entry)).entry other =
      if other = tag then entry else process.entry other := by
  by_cases same : other = tag
  · subst same
    simp [Process.entry, Process.setEntry]
  · simp [Process.entry, Process.setEntry, same]

theorem entry_setEntry_none (process : Process n Tag Item) (tag other : Tag) :
    (process.setEntry tag none).entry other =
      if other = tag then .placeholder else process.entry other := by
  by_cases same : other = tag
  · subst same
    simp [Process.entry, Process.setEntry]
  · simp [Process.entry, Process.setEntry, same]

@[simp]
theorem setEntry_sers (tag : Tag) (entry : Option (Entry n Item)) :
    (process.setEntry tag entry).sers = process.sers := rfl

@[simp]
theorem setEntry_erasedSer (tag : Tag) (entry : Option (Entry n Item)) :
    (process.setEntry tag entry).erasedSer = process.erasedSer := rfl

@[simp]
theorem setEntry_getList (tag : Tag) (entry : Option (Entry n Item)) :
    (process.setEntry tag entry).getList = process.getList := rfl

@[simp]
theorem setEntry_putting (tag : Tag) (entry : Option (Entry n Item)) :
    (process.setEntry tag entry).putting = process.putting := rfl

theorem get_cases (tuner : Tuner n Tag) (self : Fin n) (process : Process n Tag Item)
    (tag : Tag) :
    (∃ item, (process.entry tag).item = some item ∧
      (get tuner self process tag = (process, []) ∨
        ((process.entry tag).getCount ≠ noGetCount ∧ get tuner self process tag =
          ({ process with getList := tag :: process.getList }, [])))) ∨
    ((process.entry tag).item = none ∧ get tuner self process tag =
      (process.setEntry tag (some (process.entry tag).suspend),
        if (process.entry tag).suspendGroup = 0 ∧
            consumersUnspecified (tuner.consumedOn tag) then
          putRequest self tag (tuner.producedOn self tag)
        else [])) := by
  cases found : (process.entry tag).item with
  | some item =>
      refine .inl ⟨item, rfl, ?_⟩
      by_cases counted : (process.entry tag).getCount = noGetCount
      · exact .inl (by simp [get, found, counted])
      · exact .inr ⟨counted, by simp [get, found, counted]⟩
  | none => exact .inr ⟨rfl, by simp only [get, found, waitForPut]⟩

theorem getFromEnv_cases (self : Fin n) (process : Process n Tag Item) (tag : Tag) :
    ((process.entry tag).item ≠ none ∧ getFromEnv self process tag = (process, [])) ∨
    ((process.entry tag).item = none ∧ getFromEnv self process tag =
      (process.setEntry tag (some (process.entry tag).suspend),
        broadcast self (.request tag self))) := by
  cases found : (process.entry tag).item with
  | some item => exact .inl ⟨by simp, by simp only [getFromEnv, found]⟩
  | none => exact .inr ⟨rfl, by simp only [getFromEnv, found, blockForPut, putRequest]⟩

/-- A request is answered by the owner, dropped by others with the item, and
noted where the item is missing. -/
theorem getRequest_cases (self : Fin n) (process : Process n Tag Item) (tag : Tag)
    (recpnt : Fin n) :
    (∃ item, (process.entry tag).item = some item ∧ (process.entry tag).owner = some self ∧
      getRequest self process tag recpnt =
        (process, [(recpnt, .deliver self tag item)])) ∨
    ((process.entry tag).item ≠ none ∧ (process.entry tag).owner ≠ some self ∧
      getRequest self process tag recpnt = (process, [])) ∨
    ((process.entry tag).item = none ∧ getRequest self process tag recpnt =
      (process.setEntry tag (some ((process.entry tag).subscribe recpnt)), [])) := by
  cases found : (process.entry tag).item with
  | some item =>
      by_cases own : (process.entry tag).owner = some self
      · exact .inl ⟨item, rfl, own, by simp [getRequest, found, own]⟩
      · exact .inr (.inl ⟨by simp, own, by simp [getRequest, found, own]⟩)
  | none => exact .inr (.inr ⟨rfl, by simp only [getRequest, found]⟩)

theorem putOrDelete_cases (tuner : Tuner n Tag) (self : Fin n) (process : Process n Tag Item)
    (tag : Tag) (item : Item) (owner : Fin n) :
    (tuner.getCount tag = 0 ∧ owner = self ∧
      putOrDelete tuner self process tag item owner = (process, [], true)) ∨
    ((process.entry tag).item ≠ none ∧
      putOrDelete tuner self process tag item owner = (process, [], false)) ∨
    ((process.entry tag).item = none ∧ (tuner.getCount tag ≠ 0 ∨ owner ≠ self) ∧
      ∃ entry : Entry n Item, entry.item = some item ∧ entry.owner = some owner ∧
        entry.suspendGroup = 0 ∧ entry.subscribers = [] ∧
        entry.getCount = (if tuner.getCount tag = noGetCount then noGetCount else
          ((process.entry tag).setOrIncrementGetCount
            (if owner = self then tuner.getCount tag else 0)).1.getCount) ∧
        putOrDelete tuner self process tag item owner =
          (process.setEntry tag (some entry),
            if owner = self then deliver self tag item (process.entry tag).subscribers self
            else [], decide (owner = self))) := by
  by_cases discarded : tuner.getCount tag = 0 ∧ owner = self
  · exact .inl ⟨discarded.1, discarded.2, by simp [putOrDelete, discarded]⟩
  refine .inr ?_
  have counts : (if (if tuner.getCount tag ≠ noGetCount ∧ owner ≠ self then 0
        else tuner.getCount tag) = noGetCount then noGetCount else
      ((process.entry tag).setOrIncrementGetCount (if tuner.getCount tag ≠ noGetCount ∧
        owner ≠ self then 0 else tuner.getCount tag)).1.getCount) =
      if tuner.getCount tag = noGetCount then noGetCount else
        ((process.entry tag).setOrIncrementGetCount
          (if owner = self then tuner.getCount tag else 0)).1.getCount := by
    have zeroCounts : (0 : Int) ≠ noGetCount := by decide
    by_cases uncounted : tuner.getCount tag = noGetCount <;> by_cases own : owner = self <;>
      simp [uncounted, own, zeroCounts]
  by_cases present : (process.entry tag).item = none
  · obtain ⟨new, inserted, hasItem, hasOwner, sameSubscribers, count⟩ :=
      putItem_of_absent item (if tuner.getCount tag ≠ noGetCount ∧ owner ≠ self then 0
        else tuner.getCount tag) owner present
    refine .inr ⟨present, by tauto,
      { new with suspendGroup := 0, subscribers := [] }, hasItem, hasOwner, rfl, rfl, ?_, ?_⟩
    · exact count.trans counts
    · simp only [putOrDelete, discarded, if_false, inserted]
      rw [sameSubscribers]
      rfl
  · refine .inl ⟨present, ?_⟩
    simp only [putOrDelete, discarded, if_false, putItem_of_present _ _ _ present]

omit [DecidableEq Tag] in
theorem sendErased_cases (tuner : Tuner n Tag) (self : Fin n) (process : Process n Tag Item)
    (enterSafe : Bool) :
    sendErased tuner self process enterSafe = (process, []) ∨
      sendErased tuner self process enterSafe =
        ({ process with erasedSer := none },
          broadcast self (.erase (process.erasedSer.getD []) enterSafe)) := by
  unfold sendErased
  by_cases due : enterSafe = true ∨ (process.erasedSer.getD []).length > tuner.enableGC / 2
  · by_cases empty : process.erasedSer = none ∧ ¬ enterSafe = true
    · exact .inl (by simp [empty])
    · exact .inr (by simp only [if_pos due, if_neg empty])
  · exact .inl (by simp only [if_neg due])

omit [DecidableEq Tag] in
/-- An erased tag is noted for the other processes, unless this process is the
only consumer. -/
theorem addErased_cases (tuner : Tuner n Tag) (self : Fin n) (process : Process n Tag Item)
    (tag : Tag) (send : Bool) :
    (¬ (n > 1 ∧ ¬ amOnlyConsumer self (tuner.consumedOn tag)) ∧
      addErased tuner self process tag send = (process, [])) ∨
    addErased tuner self process tag send =
      ({ process with erasedSer := some (process.erasedSer.getD [] ++ [tag]) }, []) ∨
    addErased tuner self process tag send =
      ({ process with erasedSer := none },
        broadcast self (.erase (process.erasedSer.getD [] ++ [tag]) false)) := by
  unfold addErased
  by_cases others : n > 1 ∧ ¬ amOnlyConsumer self (tuner.consumedOn tag) = true
  · rw [if_pos others]
    by_cases sends : send = true
    · rw [if_pos sends]
      exact .inr (sendErased_cases tuner self _ false)
    · rw [if_neg sends]
      exact .inr (.inl rfl)
  · exact .inl ⟨others, if_neg others⟩

/-- A decrement either uses up the count, and erases the entry, or is recorded
in the entry. -/
theorem decrementRefCount_cases {tag : Tag} {send : Bool}
    {result : Process n Tag Item × Sent n Tag Item}
    (decremented : decrementRefCount tuner self process tag send = some result) :
    ∃ entry : Entry n Item, entry.item = (process.entry tag).item ∧
      entry.owner = (process.entry tag).owner ∧
      entry.suspendGroup = (process.entry tag).suspendGroup ∧
      entry.subscribers = (process.entry tag).subscribers ∧
      entry.recorded = (process.entry tag).recorded ∧
      ((entry.recorded = 1 ∧
          result = addErased tuner self (process.setEntry tag none) tag send) ∨
        (entry.recorded ≠ 1 ∧
          result = (process.setEntry tag (some (entry.setOrIncrementGetCount (-1)).1), []))) := by
  have onEntry : ∀ entry : Entry n Item,
      (entry.recorded = 1 ∧ decrementEntry tuner self process tag entry send =
          addErased tuner self (process.setEntry tag none) tag send) ∨
        (entry.recorded ≠ 1 ∧ decrementEntry tuner self process tag entry send =
          (process.setEntry tag (some (entry.setOrIncrementGetCount (-1)).1), [])) := by
    intro entry
    have enabled : tuner.enableGC ≠ 0 := Nat.pos_iff_ne_zero.mp tuner.enableGC_pos
    have usedUp := entry.setOrIncrementGetCount_snd_eq_zero_iff
    by_cases one : entry.recorded = 1
    · exact .inl ⟨one, by simp [decrementEntry, usedUp.mpr one, enabled]⟩
    · exact .inr ⟨one, by simp [decrementEntry, mt usedUp.mp one]⟩
  unfold decrementRefCount at decremented
  cases found : process.table tag with
  | some entry =>
      simp only [found, Option.some.injEq] at decremented
      have same : process.entry tag = entry := by simp [Process.entry, found]
      rw [same]
      exact ⟨entry, rfl, rfl, rfl, rfl, rfl, decremented ▸ onEntry entry⟩
  | none =>
      simp only [found, Option.ite_none_left_eq_some, Option.some.injEq] at decremented
      have same : process.entry tag = .placeholder := by simp [Process.entry, found]
      rw [same]
      exact ⟨(Entry.placeholder.setGetCount 0), rfl, rfl, rfl, rfl, rfl,
        decremented.2 ▸ onEntry _⟩

/-- Decrements are collected from entries with an owner, and sent when there are
many. -/
theorem collect_cases {tag : Tag} {result : Process n Tag Item × Sent n Tag Item}
    (collects : collect tuner self process tag = some result) :
    ∃ owner, (process.entry tag).owner = some owner ∧ (process.entry tag).recorded < 0 ∧
      (process.entry tag).recorded = (process.entry tag).getCount ∧
      (process.entry tag).getCount ≠ noGetCount ∧ ∃ numgc,
      (result = ({ getCountCollect process tag owner with numgc := numgc }, []) ∨
        result = ({ (sendGetcounts self (getCountCollect process tag owner) false).1 with
            numgc := numgc },
          (sendGetcounts self (getCountCollect process tag owner) false).2)) := by
  unfold collect at collects
  cases owned : (process.entry tag).owner with
  | none => simp [owned] at collects
  | some owner =>
      simp only [owned, Option.ite_none_right_eq_some] at collects
      obtain ⟨⟨negative, counted, -⟩, equal⟩ := collects
      refine ⟨owner, rfl, negative, ?_, counted, ?_⟩
      · unfold Entry.recorded at negative ⊢
        split at negative
        · cases negative
        · rename_i set
          exact if_neg set
      · split at equal
        · exact ⟨_, .inr (Option.some.inj equal).symm⟩
        · exact ⟨_, .inl (Option.some.inj equal).symm⟩

omit [DecidableEq Tag] in
theorem mem_sendGetcounts {enterSafe : Bool} {target : Fin n} {message : Msg n Tag Item}
    (membership : (target, message) ∈ (sendGetcounts self process enterSafe).2) :
    message = .getCounts self ((process.sers target).getD []) enterSafe := by
  obtain ⟨receiver, -, sent⟩ := List.mem_filterMap.mp membership
  cases collected : process.sers receiver with
  | some tags =>
      simp only [collected, Option.some.injEq, Prod.mk.injEq] at sent
      obtain ⟨rfl, rfl⟩ := sent
      simp [collected]
  | none =>
      simp only [collected, Option.ite_none_right_eq_some, Option.some.injEq,
        Prod.mk.injEq] at sent
      obtain ⟨-, rfl, rfl⟩ := sent
      simp [collected]

end Operations

end CnC.Item
