import CnC.Item.Effect

/-!
# Ownership of items

The first invariant of all runs in which a tag is put once: whatever mentions
an owner of the tag, in a table, in a message or in a message in preparation,
mentions the owner which the put assigned, and every copy of the item has the
value which was put.
-/

namespace CnC.Item

open Network Transition

universe u

variable {n : Nat} {Tag Item : Type u} {process : Process n Tag Item} {self : Fin n}

/-- The invariant of a process for one tag, given the owner and the value which
the put assigned: entries and messages in preparation agree with them, an item
leaves no one waiting, only the owner has a positive count, and an item without
get-count is not decremented elsewhere. -/
structure Process.Sound (owner : Option (Fin n)) (value : Option Item) (tag : Tag)
    (pid : Fin n) (process : Process n Tag Item) : Prop where
  owned : (process.entry tag).item.isSome = (process.entry tag).owner.isSome
  ownerAgrees : ∀ o, (process.entry tag).owner = some o → owner = some o
  valueAgrees : ∀ item, (process.entry tag).item = some item → value = some item
  resumed : (process.entry tag).item ≠ none →
    (process.entry tag).suspendGroup = 0 ∧ (process.entry tag).subscribers = []
  counted : owner ≠ some pid → (process.entry tag).recorded ≤ 0
  spared : owner ≠ some pid → (process.entry tag).getCount = noGetCount →
    tag ∉ process.getList
  putting : ∀ item o, (tag, item, o) ∈ process.putting → owner = some o ∧ value = some item
  sers : ∀ o, tag ∈ (process.sers o).getD [] → owner = some o
  erasedSer : tag ∈ process.erasedSer.getD [] → owner = some pid

/-- The invariant of a message. -/
def Msg.Sound (owner : Option (Fin n)) (value : Option Item) (tag : Tag)
    (source target : Fin n) : Msg n Tag Item → Prop
  | .request other recpnt => other = tag → recpnt = source ∧ source ≠ target
  | .deliver o other item => other = tag → owner = some o ∧ value = some item
  | .deliverToOwn other item => other = tag → owner = some target ∧ value = some item
  | .getCounts _ tags _ => tag ∈ tags → owner = some target
  | .erase tags _ => tag ∈ tags → owner = some source ∧ source ≠ target

def Sent.Sound (owner : Option (Fin n)) (value : Option Item) (tag : Tag) (self : Fin n)
    (sent : Sent n Tag Item) : Prop :=
  ∀ target message, (target, message) ∈ sent → message.Sound owner value tag self target

section Operations

variable [DecidableEq Tag] {tuner : Tuner n Tag} {owner : Option (Fin n)} {value : Option Item}
  {tag : Tag}

omit [DecidableEq Tag] in
theorem Sent.sound_nil : Sent.Sound owner value tag self ([] : Sent n Tag Item) := by
  intro target message membership
  cases membership

theorem Process.Sound.setEntry (sound : process.Sound owner value tag self) {entry : Entry n Item}
    (owned : entry.item.isSome = entry.owner.isSome)
    (sameOwner : ∀ o, entry.owner = some o → owner = some o)
    (sameValue : ∀ item, entry.item = some item → value = some item)
    (resumed : entry.item ≠ none → entry.suspendGroup = 0 ∧ entry.subscribers = [])
    (counted : owner ≠ some self → entry.recorded ≤ 0)
    (spared : owner ≠ some self → entry.getCount = noGetCount → tag ∉ process.getList) :
    (process.setEntry tag (some entry)).Sound owner value tag self := by
  have same : (process.setEntry tag (some entry)).entry tag = entry := by
    rw [entry_setEntry, if_pos rfl]
  refine ⟨?_, ?_, ?_, ?_, ?_, ?_, sound.putting, sound.sers, sound.erasedSer⟩ <;> rw [same] <;>
    assumption

theorem Process.Sound.setEntry_none (sound : process.Sound owner value tag self) :
    (process.setEntry tag none).Sound owner value tag self := by
  have same : (process.setEntry tag none).entry tag = .placeholder := by
    rw [entry_setEntry_none, if_pos rfl]
  refine ⟨?_, ?_, ?_, ?_, ?_, ?_, sound.putting, sound.sers, sound.erasedSer⟩ <;> rw [same] <;>
    simp [Entry.placeholder, Entry.recorded, unsetGetCount, noGetCount]

theorem Process.Sound.setEntry_other (sound : process.Sound owner value tag self) {other : Tag}
    (different : tag ≠ other) (entry : Option (Entry n Item)) :
    (process.setEntry other entry).Sound owner value tag self := by
  have same : (process.setEntry other entry).entry tag = process.entry tag := by
    simp [Process.entry, Process.setEntry, different]
  refine ⟨?_, ?_, ?_, ?_, ?_, ?_, sound.putting, sound.sers, sound.erasedSer⟩ <;> rw [same]
  · exact sound.owned
  · exact sound.ownerAgrees
  · exact sound.valueAgrees
  · exact sound.resumed
  · exact sound.counted
  · exact sound.spared

theorem Process.Sound.wait (sound : process.Sound owner value tag self) {other : Tag}
    {entry : Entry n Item} (absent : entry.item = none)
    (noOwner : entry.owner = (process.entry other).owner)
    (sameItem : entry.item = (process.entry other).item)
    (sameCount : entry.getCount = (process.entry other).getCount) :
    (process.setEntry other (some entry)).Sound owner value tag self := by
  by_cases same : tag = other
  · subst same
    apply sound.setEntry
    · rw [sameItem, noOwner]
      exact sound.owned
    · rw [noOwner]
      exact sound.ownerAgrees
    · rw [sameItem]
      exact sound.valueAgrees
    · exact fun present => absurd absent present
    · rw [Entry.recorded, sameCount]
      exact sound.counted
    · rw [sameCount]
      exact sound.spared
  · exact sound.setEntry_other same _

omit [DecidableEq Tag] in
theorem sound_putRequest (other : Tag) (producer : Producer n) :
    Sent.Sound owner value tag self (putRequest self other producer : Sent n Tag Item) := by
  intro target message membership
  obtain ⟨different, rfl⟩ := mem_putRequest membership
  exact fun _ => ⟨rfl, different.symm⟩

omit [DecidableEq Tag] in
theorem Process.Sound.congr (sound : process.Sound owner value tag self)
    {next : Process n Tag Item} (sameTable : next.table = process.table)
    (getList : next.getList ⊆ process.getList)
    (putting : ∀ item o, (tag, item, o) ∈ next.putting → owner = some o ∧ value = some item)
    (sers : ∀ o, tag ∈ (next.sers o).getD [] → owner = some o)
    (erasedSer : tag ∈ next.erasedSer.getD [] → owner = some self) :
    next.Sound owner value tag self := by
  have same : next.entry tag = process.entry tag := by
    simp only [Process.entry, sameTable]
  refine ⟨?_, ?_, ?_, ?_, ?_, ?_, putting, sers, erasedSer⟩ <;> rw [same]
  · exact sound.owned
  · exact sound.ownerAgrees
  · exact sound.valueAgrees
  · exact sound.resumed
  · exact sound.counted
  · exact fun notOwner uncounted listed => sound.spared notOwner uncounted (getList listed)

theorem sound_get (tuner : Tuner n Tag) (sound : process.Sound owner value tag self)
    (other : Tag) :
    (get tuner self process other).1.Sound owner value tag self ∧
      Sent.Sound owner value tag self (get tuner self process other).2 := by
  rcases get_cases tuner self process other with
    ⟨_, -, found | ⟨counted, found⟩⟩ | ⟨absent, found⟩
  · exact found ▸ ⟨sound, Sent.sound_nil⟩
  · rw [found]
    refine ⟨⟨sound.owned, sound.ownerAgrees, sound.valueAgrees, sound.resumed, sound.counted,
      fun notOwner uncounted listed => ?_, sound.putting, sound.sers, sound.erasedSer⟩,
      Sent.sound_nil⟩
    rcases List.mem_cons.mp listed with rfl | old
    · exact counted uncounted
    · exact sound.spared notOwner uncounted old
  · rw [found]
    refine ⟨sound.wait absent rfl rfl rfl, ?_⟩
    change Sent.Sound _ _ _ _ (if _ then _ else _)
    split
    · exact sound_putRequest other _
    · exact Sent.sound_nil

theorem sound_getFromEnv (sound : process.Sound owner value tag self) (other : Tag) :
    (getFromEnv self process other).1.Sound owner value tag self ∧
      Sent.Sound owner value tag self (getFromEnv self process other).2 := by
  rcases getFromEnv_cases self process other with ⟨_, found⟩ | ⟨absent, found⟩
  · exact found ▸ ⟨sound, Sent.sound_nil⟩
  · rw [found]
    exact ⟨sound.wait absent rfl rfl rfl, sound_putRequest other .unknown⟩

theorem sound_getRequest (sound : process.Sound owner value tag self) (other : Tag)
    (recpnt : Fin n) :
    (getRequest self process other recpnt).1.Sound owner value tag self ∧
      Sent.Sound owner value tag self (getRequest self process other recpnt).2 := by
  rcases getRequest_cases self process other recpnt with
    ⟨item, present, own, found⟩ | ⟨-, -, found⟩ | ⟨absent, found⟩
  · rw [found]
    refine ⟨sound, ?_⟩
    intro target message membership
    cases List.mem_singleton.mp membership
    rintro rfl
    exact ⟨sound.ownerAgrees _ own, sound.valueAgrees _ present⟩
  · exact found ▸ ⟨sound, Sent.sound_nil⟩
  · rw [found]
    exact ⟨sound.wait absent rfl rfl rfl, Sent.sound_nil⟩

theorem sound_putOrDelete (tuner : Tuner n Tag)
    (sound : process.Sound owner value tag self) {other : Tag} {item : Item} {o : Fin n}
    (agrees : other = tag → owner = some o ∧ value = some item)
    (unlisted : tuner.getCount tag = noGetCount → tag ∉ process.getList) :
    (putOrDelete tuner self process other item o).1.Sound owner value tag self ∧
      Sent.Sound owner value tag self (putOrDelete tuner self process other item o).2.1 := by
  rcases putOrDelete_cases tuner self process other item o with
    ⟨-, -, found⟩ | ⟨-, found⟩ | ⟨absent, -, entry, hasItem, hasOwner, noGroup, noSubscribers,
      count, found⟩
  · exact found ▸ ⟨sound, Sent.sound_nil⟩
  · exact found ▸ ⟨sound, Sent.sound_nil⟩
  rw [found]
  constructor
  · by_cases same : tag = other
    · subst same
      obtain ⟨rfl, rfl⟩ := agrees rfl
      apply sound.setEntry
      · rw [hasItem, hasOwner]
        rfl
      · exact fun o => by rw [hasOwner]; exact id
      · exact fun v => by rw [hasItem]; exact id
      · exact fun _ => ⟨noGroup, noSubscribers⟩
      · intro notOwner
        have notSelf : o ≠ self := fun same => notOwner (congrArg some same)
        rw [if_neg notSelf] at count
        by_cases uncounted : tuner.getCount tag = noGetCount
        · rw [if_pos uncounted] at count
          rw [(entry.recorded_eq_noGetCount_iff).mpr count]
          decide
        · rw [if_neg uncounted] at count
          rw [Entry.recorded, count]
          exact ((process.entry tag).setOrIncrementGetCount_zero).trans_le
            (sound.counted notOwner)
      · intro notOwner isUncounted
        have notSelf : o ≠ self := fun same => notOwner (congrArg some same)
        rw [if_neg notSelf] at count
        by_cases uncounted : tuner.getCount tag = noGetCount
        · exact unlisted uncounted
        · rw [if_neg uncounted] at count
          refine sound.spared notOwner ?_
          rw [← Entry.recorded_eq_noGetCount_iff, ← Entry.setOrIncrementGetCount_zero,
            Entry.recorded_eq_noGetCount_iff, ← count, isUncounted]
    · exact sound.setEntry_other same _
  · intro target message membership
    change (target, message) ∈ (if _ then _ else _) at membership
    split at membership
    · rename_i own
      obtain ⟨-, -, rfl⟩ := mem_deliver.mp membership
      exact fun same => own ▸ agrees same
    · cases membership

omit [DecidableEq Tag] in
theorem sound_sendErased (tuner : Tuner n Tag) (sound : process.Sound owner value tag self)
    (enterSafe : Bool) :
    (sendErased tuner self process enterSafe).1.Sound owner value tag self ∧
      Sent.Sound owner value tag self (sendErased tuner self process enterSafe).2 := by
  rcases sendErased_cases tuner self process enterSafe with found | found
  · exact found ▸ ⟨sound, Sent.sound_nil⟩
  · rw [found]
    refine ⟨sound.congr rfl (List.Subset.refl _) sound.putting sound.sers (by simp), ?_⟩
    intro target message membership
    obtain ⟨different, rfl⟩ := mem_broadcast.mp membership
    exact fun erased => ⟨sound.erasedSer erased, different.symm⟩

/-- A decrement erases an entry only at the owner, since only there counts are
positive. -/
theorem sound_decrementRefCount (sound : process.Sound owner value tag self) {other : Tag}
    {send : Bool} {result : Process n Tag Item × Sent n Tag Item}
    (isCounted : tag = other → owner ≠ some self → (process.entry tag).getCount ≠ noGetCount)
    (decremented : decrementRefCount tuner self process other send = some result) :
    result.1.Sound owner value tag self ∧ Sent.Sound owner value tag self result.2 := by
  obtain ⟨entry, sameItem, sameOwner, sameGroup, sameSubscribers, sameCount,
    ⟨one, rfl⟩ | ⟨-, rfl⟩⟩ := decrementRefCount_cases decremented
  · have isOwner : tag = other → owner = some self := by
      rintro rfl
      by_contra notOwner
      have before := sound.counted notOwner
      omega
    have erased : (process.setEntry other none).Sound owner value tag self := by
      by_cases same : tag = other
      · exact same ▸ sound.setEntry_none
      · exact sound.setEntry_other same _
    have noted : tag ∈ process.erasedSer.getD [] ++ [other] → owner = some self := by
      intro membership
      rcases List.mem_append.mp membership with old | new
      · exact sound.erasedSer old
      · exact isOwner (List.mem_singleton.mp new)
    rcases addErased_cases tuner self (process.setEntry other none) other send with
      ⟨-, found⟩ | found | found
    · exact found ▸ ⟨erased, Sent.sound_nil⟩
    · rw [found]
      exact ⟨erased.congr rfl (List.Subset.refl _) erased.putting erased.sers noted, Sent.sound_nil⟩
    · rw [found]
      refine ⟨erased.congr rfl (List.Subset.refl _) erased.putting erased.sers (by simp), ?_⟩
      intro target message membership
      obtain ⟨different, rfl⟩ := mem_broadcast.mp membership
      exact fun erased => ⟨noted erased, different.symm⟩
  · refine ⟨?_, Sent.sound_nil⟩
    by_cases same : tag = other
    · subst same
      have stays (notOwner : owner ≠ some self) := entry.decremented_of_recorded_le
        (sameCount ▸ sound.counted notOwner) fun uncounted => isCounted rfl notOwner (by
          rwa [← Entry.recorded_eq_noGetCount_iff, ← sameCount, Entry.recorded_eq_noGetCount_iff])
      apply sound.setEntry
      · rw [Entry.setOrIncrementGetCount_item, Entry.setOrIncrementGetCount_owner, sameItem,
          sameOwner]
        exact sound.owned
      · rw [Entry.setOrIncrementGetCount_owner, sameOwner]
        exact sound.ownerAgrees
      · rw [Entry.setOrIncrementGetCount_item, sameItem]
        exact sound.valueAgrees
      · rw [Entry.setOrIncrementGetCount_item, Entry.setOrIncrementGetCount_suspendGroup,
          Entry.setOrIncrementGetCount_subscribers, sameItem, sameGroup, sameSubscribers]
        exact sound.resumed
      · exact fun notOwner => (stays notOwner).1
      · exact fun notOwner uncounted => absurd uncounted (stays notOwner).2
    · exact sound.setEntry_other same _

omit [DecidableEq Tag] in
theorem sound_sendGetcounts (sound : process.Sound owner value tag self) (enterSafe : Bool) :
    (sendGetcounts self process enterSafe).1.Sound owner value tag self ∧
      Sent.Sound owner value tag self (sendGetcounts self process enterSafe).2 := by
  refine ⟨sound.congr rfl (List.Subset.refl _) sound.putting (by simp [sendGetcounts])
    sound.erasedSer, ?_⟩
  intro target message membership
  rw [mem_sendGetcounts membership]
  exact sound.sers target

theorem sound_getCountCollect (sound : process.Sound owner value tag self) {other : Tag}
    {o : Fin n} (owned : (process.entry other).owner = some o) :
    (getCountCollect process other o).Sound owner value tag self := by
  have cleared : (process.setEntry other (some ((process.entry other).setGetCount 0))).Sound
      owner value tag self := by
    have zero : asInt 0 = 0 := by decide
    by_cases same : tag = other
    · subst same
      exact sound.setEntry sound.owned sound.ownerAgrees sound.valueAgrees sound.resumed
        (fun _ => by simp [Entry.recorded, zero]) (fun _ => by simp [zero, noGetCount])
    · exact sound.setEntry_other same _
  refine cleared.congr rfl (List.Subset.refl _) sound.putting ?_ sound.erasedSer
  intro target membership
  by_cases same : target = o
  · subst same
    simp only [getCountCollect, Function.update_self, Option.getD_some] at membership
    rcases List.mem_append.mp membership with old | new
    · exact sound.sers target old
    · obtain rfl := List.eq_of_mem_replicate new
      exact sound.ownerAgrees target owned
  · simp only [getCountCollect, Function.update_of_ne same] at membership
    exact sound.sers target membership

theorem sound_collect (sound : process.Sound owner value tag self) {other : Tag}
    {result : Process n Tag Item × Sent n Tag Item}
    (collects : collect tuner self process other = some result) :
    result.1.Sound owner value tag self ∧ Sent.Sound owner value tag self result.2 := by
  obtain ⟨o, owned, -, -, -, numgc, rfl | rfl⟩ := collect_cases collects
  · have collected := sound_getCountCollect sound owned
    exact ⟨collected.congr rfl (List.Subset.refl _) collected.putting collected.sers
      collected.erasedSer,
      Sent.sound_nil⟩
  · have collected := sound_getCountCollect sound owned
    obtain ⟨flushed, sent⟩ := sound_sendGetcounts collected false
    exact ⟨flushed.congr rfl (List.Subset.refl _) flushed.putting flushed.sers
      flushed.erasedSer, sent⟩

end Operations

/-- Nothing is known of a tag before it is put, so any owner and value may be
assigned then. -/
theorem Process.Sound.assign {tag : Tag} (sound : process.Sound none none tag self)
    (owner : Option (Fin n)) (value : Option Item) : process.Sound owner value tag self where
  owned := sound.owned
  ownerAgrees o found := by cases sound.ownerAgrees o found
  valueAgrees item found := by cases sound.valueAgrees item found
  resumed := sound.resumed
  counted _ := sound.counted (by simp)
  spared _ := sound.spared (by simp)
  putting item o found := by cases (sound.putting item o found).1
  sers o found := by cases sound.sers o found
  erasedSer found := by cases sound.erasedSer found

theorem Msg.Sound.assign {tag : Tag} {source target : Fin n} {message : Msg n Tag Item}
    (sound : message.Sound none none tag source target) (owner : Option (Fin n))
    (value : Option Item) : message.Sound owner value tag source target := by
  cases message with
  | request other recpnt => exact sound
  | deliver o other item => exact fun same => by cases (sound same).1
  | deliverToOwn other item => exact fun same => by cases (sound same).1
  | getCounts pid tags enterSafe => exact fun membership => by cases sound membership
  | erase tags enterSafe => exact fun membership => by cases (sound membership).1

/-- The invariant of all runs in which the tag is put at most once. -/
structure Sound (tag : Tag) (s : State n Tag Item) : Prop where
  unassigned : s.history.owner tag = none → s.history.value tag = none
  everywhere : Everywhere
    (fun pid process => process.Sound (s.history.owner tag) (s.history.value tag) tag pid)
    (fun source target message =>
      message.Sound (s.history.owner tag) (s.history.value tag) tag source target)
    s.proc s.chan

structure Process.Idle (tag : Tag) (process : Process n Tag Item) : Prop where
  getList : tag ∉ process.getList
  sers : ∀ o, tag ∉ (process.sers o).getD []
  erasedSer : tag ∉ process.erasedSer.getD []

def Sent.Idle (tag : Tag) (sent : Sent n Tag Item) : Prop :=
  ∀ target message, (target, message) ∈ sent → tag ∉ message.tags

theorem Sent.Plain.idle {tag : Tag} {sent : Sent n Tag Item} (plain : Sent.Plain sent) :
    Sent.Idle tag sent := by
  intro target message membership
  simp [plain target message membership]

theorem idle_nil {tag : Tag} : Sent.Idle tag ([] : Sent n Tag Item) :=
  Sent.plain_nil.idle

structure Uncounted (tag : Tag) (s : State n Tag Item) : Prop where
  idle : Everywhere (fun _ process => process.Idle tag)
    (fun _ _ (message : Msg n Tag Item) => tag ∉ message.tags) s.proc s.chan
  uncounted : ∀ pid, ((s.proc pid).entry tag).item ≠ none →
    ((s.proc pid).entry tag).getCount = noGetCount

section Steps

variable {s : State n Tag Item} {tag : Tag}

theorem sound_start : Sound tag (start n Tag Item) where
  unassigned _ := rfl
  everywhere := by
    constructor
    · intro pid
      constructor <;> simp [start, Process.entry, Entry.placeholder, Entry.recorded]
    · intro source target message membership
      cases membership

theorem Sound.ofProcess (sound : Sound tag s) (pid : Fin n) :
    (s.proc pid).Sound (s.history.owner tag) (s.history.value tag) tag pid :=
  sound.everywhere.processes pid

theorem Sound.ofMessage (sound : Sound tag s) {source target : Fin n} {message : Msg n Tag Item}
    (membership : message ∈ s.chan source target) :
    message.Sound (s.history.owner tag) (s.history.value tag) tag source target :=
  sound.everywhere.messages source target message membership

theorem Sound.ofArriving (sound : Sound tag s) {pid owner : Fin n} {item : Item}
    (arriving : Arriving s pid tag item owner) :
    s.history.owner tag = some owner ∧ s.history.value tag = some item := by
  cases arriving with
  | putting pending => exact (sound.ofProcess pid).putting item owner pending
  | deliver membership => exact sound.ofMessage membership rfl
  | deliverToOwn membership own => exact own ▸ sound.ofMessage membership rfl

theorem Sound.apply (sound : Sound tag s) {pid : Fin n}
    {result : Process n Tag Item × Sent n Tag Item}
    (preserved : result.1.Sound (s.history.owner tag) (s.history.value tag) tag pid ∧
      Sent.Sound (s.history.owner tag) (s.history.value tag) tag pid result.2) :
    Sound tag (s.apply pid result) where
  unassigned := sound.unassigned
  everywhere := sound.everywhere.apply preserved.1 preserved.2

theorem Sound.setQueue (sound : Sound tag s) {source target : Fin n}
    {queue : List (Msg n Tag Item)} (remaining : ∀ message ∈ queue,
      message.Sound (s.history.owner tag) (s.history.value tag) tag source target) :
    Sound tag (s.setQueue source target queue) where
  unassigned := sound.unassigned
  everywhere := sound.everywhere.setQueue remaining

theorem Sound.withHistory (sound : Sound tag s) {onPuts : List (Fin n × Tag)}
    {history : History n Tag Item} (sameOwner : history.owner tag = s.history.owner tag)
    (sameValue : history.value tag = s.history.value tag) :
    Sound tag { s with onPuts := onPuts, history := history } := by
  constructor
  · rw [sameOwner, sameValue]
    exact sound.unassigned
  · simp only [sameOwner, sameValue]
    exact sound.everywhere

variable [DecidableEq Tag] {tuner : Tuner n Tag}

omit [DecidableEq Tag] in
theorem Sound.getAt (sound : Sound tag s) {pid : Fin n} {other : Tag}
    {result : Process n Tag Item × Sent n Tag Item}
    (preserved : result.1.Sound (s.history.owner tag) (s.history.value tag) tag pid ∧
      Sent.Sound (s.history.owner tag) (s.history.value tag) tag pid result.2) :
    Sound tag (s.getAt pid other result) := by
  apply (sound.apply preserved).withHistory
  · split <;> rfl
  · split <;> rfl

theorem Sound.insertAt (sound : Sound tag s) {pid : Fin n} {process : Process n Tag Item}
    (before : process.Sound (s.history.owner tag) (s.history.value tag) tag pid) {other : Tag}
    {item : Item} {o : Fin n}
    (agrees : other = tag → s.history.owner tag = some o ∧ s.history.value tag = some item)
    (unlisted : tuner.getCount tag = noGetCount → tag ∉ process.getList) :
    Sound tag (s.insertAt tuner pid process other item o) := by
  have inserted := sound_putOrDelete tuner before agrees unlisted
  have applied : Sound tag (s.apply pid ((putOrDelete tuner pid process other item o).1,
    (putOrDelete tuner pid process other item o).2.1)) := sound.apply inserted
  exact applied.withHistory rfl rfl

theorem Sound.decrementAt (sound : Sound tag s) {pid : Fin n} {process : Process n Tag Item}
    (before : process.Sound (s.history.owner tag) (s.history.value tag) tag pid) {other : Tag}
    {send : Bool} {next : State n Tag Item}
    (isCounted : tag = other → s.history.owner tag ≠ some pid →
      (process.entry tag).getCount ≠ noGetCount)
    (decremented : s.decrementAt tuner pid process other send = some next) :
    Sound tag next := by
  unfold State.decrementAt at decremented
  cases found : decrementRefCount tuner pid process other send with
  | none => simp [found] at decremented
  | some result =>
      simp only [found, Option.some.injEq] at decremented
      subst decremented
      exact (sound.apply (sound_decrementRefCount before isCounted found)).withHistory rfl rfl

theorem Sound.put (sound : Sound tag s) {pid : Fin n} {other : Tag} {item : Item} {o : Fin n}
    {here : Bool} {sent : Sent n Tag Item} (once : other = tag → s.history.owner tag = none)
    (delivered : deliverPut pid other item (tuner.consumedOn other) =
      some (o, here, sent)) :
    Sound tag { s.apply pid
        ({ s.proc pid with
          putting := if here then (other, item, o) :: (s.proc pid).putting
            else (s.proc pid).putting }, sent) with
      history := s.history.assign other item o } := by
  have assigned : ((s.history.assign other item o).owner tag = some o ∧
      (s.history.assign other item o).value tag = some item ∧ other = tag) ∨
      ((s.history.assign other item o).owner tag = s.history.owner tag ∧
        (s.history.assign other item o).value tag = s.history.value tag ∧ other ≠ tag) := by
    by_cases same : other = tag
    · subst same
      exact .inl (by simp [History.assign])
    · exact .inr (by simp [History.assign, same, Ne.symm same])
  have everywhere : Everywhere
      (fun pid process => process.Sound ((s.history.assign other item o).owner tag)
        ((s.history.assign other item o).value tag) tag pid)
      (fun source target message =>
        message.Sound ((s.history.assign other item o).owner tag)
          ((s.history.assign other item o).value tag) tag source target)
      s.proc s.chan := by
    rcases assigned with ⟨newOwner, newValue, same⟩ | ⟨sameOwner, sameValue, -⟩
    · have before := sound.everywhere
      rw [once same, sound.unassigned (once same)] at before
      rw [newOwner, newValue]
      exact before.imp (fun _ _ known => known.assign _ _) (fun _ _ _ known => known.assign _ _)
    · rw [sameOwner, sameValue]
      exact sound.everywhere
  have agrees : other = tag → (s.history.assign other item o).owner tag = some o ∧
      (s.history.assign other item o).value tag = some item := by
    intro same
    rcases assigned with ⟨newOwner, newValue, -⟩ | ⟨-, -, different⟩
    · exact ⟨newOwner, newValue⟩
    · exact absurd same different
  constructor
  · rcases assigned with ⟨newOwner, -, -⟩ | ⟨sameOwner, sameValue, -⟩
    · simp [newOwner]
    · simpa [sameOwner, sameValue] using sound.unassigned
  · apply everywhere.apply
    · have before := everywhere.processes pid
      refine before.congr rfl (List.Subset.refl _) ?_ before.sers before.erasedSer
      intro v p membership
      cases here with
      | true =>
          rcases List.mem_cons.mp membership with new | old
          · cases new
            exact agrees rfl
          · exact before.putting v p old
      | false => exact before.putting v p membership
    · intro target message membership
      obtain ⟨-, rfl | ⟨rfl, rfl⟩⟩ := mem_deliverPut delivered membership
      · exact agrees
      · exact agrees

theorem Sound.recvMsg (sound : Sound tag s) {source target : Fin n}
    {message : Msg n Tag Item} {rest : List (Msg n Tag Item)} {next : State n Tag Item}
    (unlisted : tuner.getCount tag = noGetCount → ∀ pid, tag ∉ (s.proc pid).getList)
    (head : s.chan source target = message :: rest)
    (received : s.recvMsg tuner source target rest message = some next) : Sound tag next := by
  have known := sound.ofMessage (head ▸ List.mem_cons_self : message ∈ s.chan source target)
  have later : ∀ other ∈ rest,
      other.Sound (s.history.owner tag) (s.history.value tag) tag source target :=
    fun other membership => sound.ofMessage (head ▸ List.mem_cons_of_mem _ membership)
  have popped := sound.setQueue later
  have atTarget := sound.ofProcess target
  cases message with
  | request other recpnt =>
      cases received
      exact popped.apply (sound_getRequest atTarget other recpnt)
  | deliver o other item =>
      cases received
      exact popped.insertAt atTarget known fun uncounted => unlisted uncounted target
  | deliverToOwn other item =>
      cases received
      exact popped.insertAt atTarget known fun uncounted => unlisted uncounted target
  | getCounts pid tags enterSafe =>
      cases tags with
      | nil =>
          cases received
          apply popped.apply
          split
          · exact ⟨atTarget.congr rfl (List.Subset.refl _) atTarget.putting atTarget.sers
              atTarget.erasedSer,
              Sent.sound_nil⟩
          · exact sound_sendErased tuner atTarget false
      | cons other tags =>
          have shortened : Sound tag
              (s.setQueue source target (.getCounts pid tags enterSafe :: rest)) := by
            apply sound.setQueue
            intro message membership
            rcases List.mem_cons.mp membership with rfl | old
            · exact fun listed => known (List.mem_cons_of_mem _ listed)
            · exact later message old
          refine shortened.decrementAt atTarget ?_ received
          rintro rfl notOwner
          exact absurd (known List.mem_cons_self) notOwner
  | erase tags enterSafe =>
      cases tags with
      | nil =>
          cases received
          refine popped.apply ⟨?_, Sent.sound_nil⟩
          dsimp only
          split
          · exact atTarget.congr rfl (List.Subset.refl _) atTarget.putting atTarget.sers
              atTarget.erasedSer
          · exact atTarget
      | cons other tags =>
          cases received
          have shortened : Sound tag
              (s.setQueue source target (.erase tags enterSafe :: rest)) := by
            apply sound.setQueue
            intro message membership
            rcases List.mem_cons.mp membership with rfl | old
            · exact fun listed => known (List.mem_cons_of_mem _ listed)
            · exact later message old
          have erased : (eraseAlien (s.proc target) other).Sound (s.history.owner tag)
              (s.history.value tag) tag target := by
            by_cases same : tag = other
            · exact same ▸ atTarget.setEntry_none
            · exact atTarget.setEntry_other same _
          have applied : Sound tag ((s.setQueue source target
              (.erase tags enterSafe :: rest)).apply target
                (eraseAlien (s.proc target) other, [])) :=
            shortened.apply ⟨erased, Sent.sound_nil⟩
          exact applied.withHistory rfl rfl

variable [DecidableEq Item]

theorem Sound.step {action : Action n Tag Item} {next : State n Tag Item}
    (sound : Sound tag s) (once : PutOnce tag s action)
    (unlisted : tuner.getCount tag = noGetCount → ∀ pid, tag ∉ (s.proc pid).getList)
    (stepped : step tuner s action = some next) : Sound tag next := by
  cases action with
  | get pid other =>
      cases stepped
      exact sound.getAt (sound_get tuner (sound.ofProcess pid) other)
  | getFromEnv pid other =>
      cases stepped
      exact sound.getAt (sound_getFromEnv (sound.ofProcess pid) other)
  | put pid other item =>
      simp only [CnC.Item.step] at stepped
      split at stepped
      · cases stepped
      · rename_i delivered
        cases stepped
        exact sound.put once delivered
  | insert pid other item o =>
      simp only [CnC.Item.step, Option.ite_none_right_eq_some, Option.some.injEq] at stepped
      obtain ⟨pending, rfl⟩ := stepped
      have before := sound.ofProcess pid
      apply sound.insertAt
      · exact before.congr rfl (List.Subset.refl _) (fun v p membership =>
          before.putting v p (List.mem_of_mem_erase membership)) before.sers before.erasedSer
      · rintro rfl
        exact before.putting item o pending
      · exact fun uncounted => unlisted uncounted pid
  | commit pid other =>
      simp only [CnC.Item.step, Option.ite_none_right_eq_some] at stepped
      obtain ⟨listed, decremented⟩ := stepped
      have before := sound.ofProcess pid
      have committed : Sound tag { s with history := s.history.commit other } :=
        sound.withHistory rfl rfl
      refine committed.decrementAt ?_ ?_ decremented
      · exact before.congr rfl List.erase_subset before.putting before.sers before.erasedSer
      · rintro rfl notOwner uncounted
        exact before.spared notOwner uncounted listed
  | clear pid other =>
      cases stepped
      have before := sound.ofProcess pid
      exact sound.apply ⟨before.congr rfl List.erase_subset before.putting before.sers
        before.erasedSer, Sent.sound_nil⟩
  | collect pid other =>
      simp only [CnC.Item.step] at stepped
      split at stepped
      · cases stepped
      · rename_i collects
        cases stepped
        exact sound.apply (sound_collect (sound.ofProcess pid) collects)
  | sendGetcounts pid enterSafe =>
      cases stepped
      exact sound.apply (sound_sendGetcounts (sound.ofProcess pid) enterSafe)
  | sendErased pid enterSafe =>
      cases stepped
      exact sound.apply (sound_sendErased tuner (sound.ofProcess pid) enterSafe)
  | receive source target =>
      simp only [CnC.Item.step] at stepped
      split at stepped
      · cases stepped
      · rename_i head
        exact sound.recvMsg unlisted head stepped

omit [DecidableEq Item] [DecidableEq Tag] in
theorem uncounted_start : Uncounted tag (start n Tag Item) where
  idle := by
    refine ⟨fun pid => ⟨?_, ?_, ?_⟩, ?_⟩ <;> simp [start]
  uncounted pid present := absurd rfl present

omit [DecidableEq Item] [DecidableEq Tag] in
theorem Uncounted.apply (uncounted : Uncounted tag s) {s₀ next : State n Tag Item} {pid : Fin n}
    {process : Process n Tag Item} {sent : Sent n Tag Item} (idle : process.Idle tag)
    (counts : (process.entry tag).item ≠ none → (process.entry tag).getCount = noGetCount)
    (queued : ∀ i j, ∀ message ∈ s₀.chan i j, tag ∉ message.tags) (sentIdle : Sent.Idle tag sent)
    (same : s₀.proc = s.proc) (proc : next.proc = Function.update s₀.proc pid process)
    (chan : next.chan = s₀.chan.send pid sent) : Uncounted tag next where
  idle := by
    rw [proc, same, chan]
    exact Everywhere.apply ⟨uncounted.idle.processes, queued⟩ idle sentIdle
  uncounted p := by
    rw [proc, same]
    by_cases here : p = pid
    · subst here
      simpa using counts
    · simpa [here] using uncounted.uncounted p

omit [DecidableEq Item] [DecidableEq Tag] in
theorem Uncounted.kept (uncounted : Uncounted tag s) {pid : Fin n} {process : Process n Tag Item}
    (kept : Kept (s.proc pid) process) : process.Idle tag ∧
      ((process.entry tag).item ≠ none → (process.entry tag).getCount = noGetCount) := by
  have idle := uncounted.idle.processes pid
  refine ⟨⟨fun listed => ?_, ?_, ?_⟩, fun present => ?_⟩
  · rcases kept.getList tag listed with old | ⟨present, counted⟩
    · exact idle.getList old
    · exact counted (uncounted.uncounted pid present)
  · rw [kept.sers]
    exact idle.sers
  · rw [kept.erasedSer]
    exact idle.erasedSer
  · rw [kept.getCount]
    exact uncounted.uncounted pid (kept.item tag ▸ present)

omit [DecidableEq Item] [DecidableEq Tag] in
theorem Uncounted.pops (uncounted : Uncounted tag s) {s₀ : State n Tag Item} (pops : Pops s s₀) :
    ∀ i j, ∀ message ∈ s₀.chan i j, tag ∉ message.tags := by
  cases pops with
  | none => exact uncounted.idle.messages
  | head head _ => exact (uncounted.idle.tail head).messages

omit [DecidableEq Item] in
theorem Uncounted.origin (uncounted : Uncounted tag s) {s₀ : State n Tag Item} {pid : Fin n}
    {other : Tag} (origin : Origin s pid other s₀) : other ≠ tag ∧ s₀.proc = s.proc ∧
      ∀ i j, ∀ message ∈ s₀.chan i j, tag ∉ message.tags := by
  cases origin with
  | committed listed =>
      refine ⟨?_, rfl, uncounted.idle.messages⟩
      rintro rfl
      exact (uncounted.idle.processes pid).getList listed
  | received head =>
      have unlisted := uncounted.idle.messages _ _ _ (head ▸ List.mem_cons_self)
      refine ⟨?_, rfl, (uncounted.idle.setQueue fun message queued => ?_).messages⟩
      · rintro rfl
        exact unlisted List.mem_cons_self
      · rcases List.mem_cons.mp queued with rfl | old
        · exact fun later => unlisted (List.mem_cons_of_mem _ later)
        · exact uncounted.idle.messages _ _ message (head ▸ List.mem_cons_of_mem _ old)

omit [DecidableEq Item] in
theorem Process.Idle.setEntry_other {process : Process n Tag Item} (idle : process.Idle tag)
    (counts : (process.entry tag).item ≠ none → (process.entry tag).getCount = noGetCount)
    {other : Tag} (different : other ≠ tag) (entry : Option (Entry n Item)) :
    (process.setEntry other entry).Idle tag ∧
      (((process.setEntry other entry).entry tag).item ≠ none →
        ((process.setEntry other entry).entry tag).getCount = noGetCount) := by
  have same : (process.setEntry other entry).entry tag = process.entry tag := by
    simp [Process.entry, Process.setEntry, Ne.symm different]
  rw [same]
  exact ⟨⟨idle.getList, idle.sers, idle.erasedSer⟩, counts⟩

omit [DecidableEq Item] in
theorem Uncounted.effect (uncounted : Uncounted tag s) (sound : Sound tag s)
    (noCount : tuner.getCount tag = noGetCount) {action : Action n Tag Item}
    {next : State n Tag Item} (effect : Effect tuner s action next) : Uncounted tag next := by
  cases effect with
  | quiet pops kept plain _ _ =>
      obtain ⟨idle, counts⟩ := uncounted.kept kept
      exact uncounted.apply idle counts (uncounted.pops pops) plain.idle
        pops.same.1 rfl rfl
  | put _ kept plain =>
      obtain ⟨idle, counts⟩ := uncounted.kept kept
      exact uncounted.apply idle counts uncounted.idle.messages plain.idle rfl rfl rfl
  | @insert s₀ pid process other item owner sent entry pops _ _ kept _ _ _ count _ plain =>
      obtain ⟨idle, counts⟩ := uncounted.kept kept
      by_cases same : other = tag
      · subst same
        have changed : (process.setEntry other (some entry)).Idle other :=
          ⟨idle.getList, idle.sers, idle.erasedSer⟩
        refine uncounted.apply changed (fun _ => ?_) (uncounted.pops pops) plain.idle
          pops.same.1 rfl rfl
        rw [entry_setEntry, if_pos rfl, count, if_pos noCount]
      · obtain ⟨changed, unchanged⟩ := idle.setEntry_other counts same (some entry)
        exact uncounted.apply changed unchanged (uncounted.pops pops) plain.idle
          pops.same.1 rfl rfl
  | record origin kept _ _ _ _ =>
      obtain ⟨idle, counts⟩ := uncounted.kept kept
      obtain ⟨different, sameProc, queued⟩ := uncounted.origin origin
      obtain ⟨changed, unchanged⟩ := idle.setEntry_other counts different _
      exact uncounted.apply changed unchanged queued idle_nil sameProc rfl rfl
  | @gone s₀ pid process other erasedSer origin kept _ noted =>
      obtain ⟨idle, counts⟩ := uncounted.kept kept
      obtain ⟨different, sameProc, queued⟩ := uncounted.origin origin
      obtain ⟨changed, unchanged⟩ := idle.setEntry_other counts different none
      have unlisted : tag ∉ erasedSer.getD [] := by
        rcases noted with ⟨-, rfl⟩ | rfl
        · exact idle.erasedSer
        · simp [idle.erasedSer, Ne.symm different]
      have idle' : Process.Idle tag
          { process.setEntry other none with erasedSer := erasedSer } :=
        ⟨changed.getList, changed.sers, unlisted⟩
      exact uncounted.apply idle' unchanged queued idle_nil sameProc rfl rfl
  | @collect pid other owner numgc owned _ _ counted =>
      have idle := uncounted.idle.processes pid
      have different : other ≠ tag := by
        rintro rfl
        have known := (sound.ofProcess pid).owned
        refine counted (uncounted.uncounted pid fun absent => ?_)
        simp [owned, absent] at known
      obtain ⟨changed, unchanged⟩ := idle.setEntry_other (uncounted.uncounted pid) different
        (some (((s.proc pid).entry other).setGetCount 0))
      have idle' : Process.Idle tag
          { getCountCollect (s.proc pid) other owner with numgc := numgc } := by
        refine ⟨changed.getList, fun target => ?_, changed.erasedSer⟩
        by_cases same : target = owner
        · subst same
          simp [getCountCollect, idle.sers target, Ne.symm different]
        · simp [getCountCollect, same, idle.sers target]
      exact uncounted.apply idle' unchanged uncounted.idle.messages idle_nil rfl rfl rfl
  | @erase source target other tags enterSafe rest head =>
      have idle := uncounted.idle.processes target
      have unlisted := uncounted.idle.messages _ _ _ (head ▸ List.mem_cons_self)
      have different : other ≠ tag := by
        rintro rfl
        exact unlisted List.mem_cons_self
      obtain ⟨changed, unchanged⟩ :=
        idle.setEntry_other (uncounted.uncounted target) different none
      have queued : ∀ i j, ∀ message ∈
          (s.setQueue source target (.erase tags enterSafe :: rest)).chan i j,
          tag ∉ message.tags := by
        refine (uncounted.idle.setQueue fun message queued => ?_).messages
        rcases List.mem_cons.mp queued with rfl | old
        · exact fun later => unlisted (List.mem_cons_of_mem _ later)
        · exact uncounted.idle.messages _ _ message (head ▸ List.mem_cons_of_mem _ old)
      exact uncounted.apply changed unchanged queued idle_nil rfl rfl rfl

omit [DecidableEq Item] [DecidableEq Tag] in
theorem Uncounted.flush (uncounted : Uncounted tag s) {next : State n Tag Item}
    (flush : Flush s next) : Uncounted tag next := by
  cases flush with
  | none => exact uncounted
  | counts pid enterSafe numgc =>
      have idle := uncounted.idle.processes pid
      have idle' : Process.Idle tag
          { s.proc pid with sers := fun _ => none, numgc := numgc } :=
        ⟨idle.getList, fun _ => List.not_mem_nil, idle.erasedSer⟩
      refine uncounted.apply idle' (uncounted.uncounted pid) uncounted.idle.messages ?_ rfl rfl rfl
      intro target message membership
      rw [mem_sendGetcounts membership]
      exact idle.sers target
  | erased pid enterSafe =>
      have idle := uncounted.idle.processes pid
      have idle' : Process.Idle tag { s.proc pid with erasedSer := none } :=
        ⟨idle.getList, idle.sers, List.not_mem_nil⟩
      refine uncounted.apply idle' (uncounted.uncounted pid) uncounted.idle.messages ?_ rfl rfl rfl
      intro target message membership
      obtain ⟨-, rfl⟩ := mem_broadcast.mp membership
      exact idle.erasedSer

theorem sound_and_uncounted_of_reached (reached : Reached (system tuner) (PutOnce tag) s) :
    Sound tag s ∧ (tuner.getCount tag = noGetCount → Uncounted tag s) := by
  refine Reached.invariant
    (fun s => Sound tag s ∧ (tuner.getCount tag = noGetCount → Uncounted tag s)) ?_ ?_ reached
  · rintro _ rfl
    exact ⟨sound_start, fun _ => uncounted_start⟩
  · rintro before action next - ⟨sound, uncounted⟩ once stepped
    refine ⟨sound.step once (fun noCount pid =>
      ((uncounted noCount).idle.processes pid).getList) stepped, fun noCount => ?_⟩
    obtain ⟨middle, effect, flush⟩ := effect_of_step stepped
    exact ((uncounted noCount).effect sound noCount effect).flush flush

theorem sound_of_reached (reached : Reached (system tuner) (PutOnce tag) s) : Sound tag s :=
  (sound_and_uncounted_of_reached reached).1

end Steps

end CnC.Item
