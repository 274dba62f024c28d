import CnC.Item.Request

/-!
# Items without get-count

An item without get-count is never erased.  The invariant of this module says
where such an item is between its put and its insertion at the owner, and that
the owner calls the `on_put` callbacks when it inserts the item.
-/

namespace CnC.Item

open Network Transition

universe u

variable {n : Nat} {Tag Item : Type u}

/-- The processes which have called the `on_put` callbacks for a tag. -/
def State.putCalls [DecidableEq Tag] (s : State n Tag Item) (tag : Tag) : List (Fin n) :=
  (s.onPuts.filter fun call => call.2 = tag).map Prod.fst

/-- The message brings the item to its receiver. -/
def Msg.Delivers (tag : Tag) : Msg n Tag Item → Prop
  | .deliver _ other _ => other = tag
  | .deliverToOwn other _ => other = tag
  | _ => False

/-- The invariant of a tag which is put once and without get-count: as long as
the owner has not stored the item it is on its way, and when it has, it has called
the callbacks. -/
structure Owned [DecidableEq Tag] (tag : Tag) (s : State n Tag Item) : Prop where
  idle : Everywhere (fun _ process => process.Idle tag)
    (fun _ _ (message : Msg n Tag Item) => tag ∉ message.tags) s.proc s.chan
  uncounted : ∀ pid, ((s.proc pid).entry tag).item ≠ none →
    ((s.proc pid).entry tag).getCount = noGetCount
  arriving : ∀ o, s.history.owner tag = some o → ((s.proc o).entry tag).item = none →
    ∃ item, Arriving s o tag item o
  called : ∀ o, s.history.owner tag = some o → ((s.proc o).entry tag).item ≠ none →
    s.putCalls tag = [o]
  uncalled : (∀ o, s.history.owner tag = some o → ((s.proc o).entry tag).item = none) →
    s.putCalls tag = []

/-- A message which does not bring the item is taken from a queue, or partly
handled. -/
structure Passes (tag : Tag) (s s₀ : State n Tag Item) : Prop where
  proc : s₀.proc = s.proc
  idle : ∀ i j, ∀ message ∈ s₀.chan i j, message ∈ s.chan i j ∨ tag ∉ message.tags
  kept : ∀ i j message, message.Delivers tag → message ∈ s.chan i j → message ∈ s₀.chan i j

section Owned

variable {s s₀ next : State n Tag Item} {tag : Tag} {pid : Fin n} {process : Process n Tag Item}
  {sent : Sent n Tag Item}

theorem Passes.refl : Passes tag s s :=
  ⟨rfl, fun _ _ _ old => .inl old, fun _ _ _ _ old => old⟩

theorem passes_setQueue {source target : Fin n} {message : Msg n Tag Item}
    {rest queue : List (Msg n Tag Item)} (head : s.chan source target = message :: rest)
    (other : ¬ message.Delivers tag) (remaining : ∀ later ∈ rest, later ∈ queue)
    (idle : ∀ later ∈ queue, later ∈ rest ∨ tag ∉ later.tags) :
    Passes tag s (s.setQueue source target queue) where
  proc := rfl
  idle i j later membership := by
    rcases Channels.mem_setQueue membership with ⟨rfl, rfl, queued⟩ | old
    · rcases idle later queued with old | unlisted
      · exact .inl (head ▸ List.mem_cons_of_mem _ old)
      · exact .inr unlisted
    · exact .inl old
  kept i j later delivers old := by
    by_cases same : i = source ∧ j = target
    · obtain ⟨rfl, rfl⟩ := same
      rw [head] at old
      simp only [State.setQueue, Channels.setQueue_same]
      rcases List.mem_cons.mp old with rfl | old
      · exact absurd delivers other
      · exact remaining later old
    · simpa only [State.setQueue, Channels.setQueue_other _ _ same] using old

theorem passes_tail {source target : Fin n} {message : Msg n Tag Item}
    {rest : List (Msg n Tag Item)} (head : s.chan source target = message :: rest)
    (other : ¬ message.Delivers tag) : Passes tag s (s.setQueue source target rest) :=
  passes_setQueue head other (fun _ old => old) fun _ old => .inl old

theorem Arriving.mono {item : Item} {owner : Fin n} (arriving : Arriving s pid tag item owner)
    (putting : (tag, item, owner) ∈ (s.proc pid).putting →
      (tag, item, owner) ∈ (next.proc pid).putting)
    (kept : ∀ i message, message.Delivers tag → message ∈ s.chan i pid →
      message ∈ next.chan i pid) : Arriving next pid tag item owner := by
  cases arriving with
  | putting pending => exact .putting (putting pending)
  | deliver membership => exact .deliver (kept _ _ rfl membership)
  | deliverToOwn membership own => exact .deliverToOwn (kept _ _ rfl membership) own

variable [DecidableEq Tag]

theorem Owned.keep (owned : Owned tag s)
    (idle : Everywhere (fun _ process => process.Idle tag)
      (fun _ _ (message : Msg n Tag Item) => tag ∉ message.tags) next.proc next.chan)
    (sameItem : ∀ q, ((next.proc q).entry tag).item = ((s.proc q).entry tag).item)
    (uncounted : ∀ q, ((next.proc q).entry tag).item ≠ none →
      ((next.proc q).entry tag).getCount = noGetCount)
    (owner : next.history.owner tag = s.history.owner tag)
    (calls : next.putCalls tag = s.putCalls tag)
    (arriving : ∀ o item, ((s.proc o).entry tag).item = none → Arriving s o tag item o →
      Arriving next o tag item o) : Owned tag next where
  idle := idle
  uncounted := uncounted
  arriving o isOwner absent := by
    rw [sameItem] at absent
    obtain ⟨item, before⟩ := owned.arriving o (owner ▸ isOwner) absent
    exact ⟨item, arriving o item absent before⟩
  called o isOwner present := by
    rw [sameItem] at present
    rw [calls, owned.called o (owner ▸ isOwner) present]
  uncalled absent := by
    rw [calls]
    apply owned.uncalled
    intro o isOwner
    rw [← sameItem]
    exact absent o (owner.trans isOwner)

/-- A step of one process which neither inserts the item nor takes it from a
queue. -/
theorem Owned.quiet (owned : Owned tag s) (passes : Passes tag s s₀)
    (sameItem : (process.entry tag).item = ((s.proc pid).entry tag).item)
    (uncounted : (process.entry tag).item ≠ none → (process.entry tag).getCount = noGetCount)
    (idle : process.Idle tag) (sentIdle : Sent.Idle tag sent)
    (putting : ∀ item o, (tag, item, o) ∈ (s.proc pid).putting → (tag, item, o) ∈ process.putting)
    (proc : next.proc = Function.update s₀.proc pid process)
    (chan : next.chan = s₀.chan.send pid sent)
    (owner : next.history.owner tag = s.history.owner tag)
    (calls : next.putCalls tag = s.putCalls tag) : Owned tag next := by
  have here : next.proc pid = process := by rw [proc, Function.update_self]
  have elsewhere : ∀ q, q ≠ pid → next.proc q = s.proc q := by
    intro q different
    rw [proc, Function.update_of_ne different, passes.proc]
  refine owned.keep ?_ ?_ ?_ owner calls ?_
  · rw [proc, chan]
    refine Everywhere.apply ⟨?_, ?_⟩ idle sentIdle
    · rw [passes.proc]
      exact owned.idle.processes
    · intro i j message membership
      rcases passes.idle i j message membership with old | unlisted
      · exact owned.idle.messages i j message old
      · exact unlisted
  · intro q
    by_cases same : q = pid
    · rw [same, here, sameItem]
    · rw [elsewhere q same]
  · intro q
    by_cases same : q = pid
    · rw [same, here]
      exact uncounted
    · rw [elsewhere q same]
      exact owned.uncounted q
  · intro o item _ before
    apply before.mono
    · intro pending
      by_cases same : o = pid
      · subst same
        rw [here]
        exact putting item o pending
      · rw [elsewhere o same]
        exact pending
    · intro i message delivers old
      rw [chan]
      exact Channels.mem_send.mpr (.inl (passes.kept i o message delivers old))

theorem Owned.aside (owned : Owned tag s) (passes : Passes tag s s₀)
    {result : Process n Tag Item × Sent n Tag Item} (aside : Aside tag (s.proc pid) result)
    (putting : ∀ item o, (tag, item, o) ∈ (s.proc pid).putting →
      (tag, item, o) ∈ result.1.putting)
    (proc : next.proc = Function.update s₀.proc pid result.1)
    (chan : next.chan = s₀.chan.send pid result.2)
    (owner : next.history.owner tag = s.history.owner tag)
    (calls : next.putCalls tag = s.putCalls tag) : Owned tag next := by
  refine owned.quiet passes ?_ ?_ aside.idle aside.sent putting proc chan owner calls
  · rw [aside.entry]
  · rw [aside.entry]
    exact owned.uncounted pid

/-- A process has the item after a step.  The callbacks are called if it is the
owner and had not the item before. -/
theorem Owned.arrived (owned : Owned tag s) {o : Fin n} (isOwner : s.history.owner tag = some o)
    (idle : Everywhere (fun _ process => process.Idle tag)
      (fun _ _ (message : Msg n Tag Item) => tag ∉ message.tags) next.proc next.chan)
    (present : ((next.proc pid).entry tag).item ≠ none)
    (uncounted : ((next.proc pid).entry tag).getCount = noGetCount)
    (elsewhere : ∀ q, q ≠ pid → next.proc q = s.proc q)
    (owner : next.history.owner tag = s.history.owner tag)
    (calls : next.putCalls tag =
      if o = pid ∧ ((s.proc pid).entry tag).item = none then pid :: s.putCalls tag
      else s.putCalls tag)
    (kept : ∀ q item, q ≠ pid → Arriving s q tag item q → Arriving next q tag item q) :
    Owned tag next := by
  have unique : ∀ p, next.history.owner tag = some p → p = o := by
    intro p found
    rw [owner, isOwner] at found
    exact (Option.some.inj found).symm
  refine ⟨idle, ?_, ?_, ?_, ?_⟩
  · intro q
    by_cases same : q = pid
    · subst same
      exact fun _ => uncounted
    · rw [elsewhere q same]
      exact owned.uncounted q
  · intro p found absent
    obtain rfl := unique p found
    have different : p ≠ pid := fun same => present (same ▸ absent)
    rw [elsewhere p different] at absent
    obtain ⟨item, before⟩ := owned.arriving p isOwner absent
    exact ⟨item, kept p item different before⟩
  · intro p found presentThere
    obtain rfl := unique p found
    rw [calls]
    by_cases same : p = pid
    · subst same
      by_cases before : ((s.proc p).entry tag).item = none
      · rw [if_pos ⟨rfl, before⟩, owned.uncalled]
        intro q isOwnerToo
        rw [isOwner] at isOwnerToo
        exact Option.some.inj isOwnerToo ▸ before
      · rw [if_neg fun inserted => before inserted.2, owned.called p isOwner before]
    · rw [elsewhere p same] at presentThere
      rw [if_neg fun inserted => same inserted.1, owned.called p isOwner presentThere]
  · intro absent
    have absentThere := absent o (owner.trans isOwner)
    have different : o ≠ pid := fun same => present (same ▸ absentThere)
    rw [calls, if_neg fun inserted => different inserted.1, owned.uncalled]
    intro q isOwnerToo
    rw [isOwner] at isOwnerToo
    rw [← Option.some.inj isOwnerToo, ← elsewhere o different]
    exact absentThere

theorem Owned.insert {tuner : Tuner n Tag} (owned : Owned tag s)
    (uncounted : tuner.getCount tag = noGetCount) {item : Item} {o : Fin n}
    (isOwner : s.history.owner tag = some o) (sameTable : process.table = (s.proc pid).table)
    (idle : process.Idle tag) (sameProc : s₀.proc = s.proc) (sameHistory : s₀.history = s.history)
    (sameCalls : s₀.onPuts = s.onPuts)
    (remaining : ∀ i j, ∀ message ∈ s₀.chan i j, message ∈ s.chan i j)
    (kept : ∀ i j, j ≠ pid → ∀ message ∈ s.chan i j, message ∈ s₀.chan i j) :
    Owned tag (s₀.insertAt tuner pid process tag item o) := by
  have sameEntry : process.entry tag = (s.proc pid).entry tag := by
    simp only [Process.entry, sameTable]
  have idleBefore : Everywhere (fun _ process => process.Idle tag)
      (fun _ _ (message : Msg n Tag Item) => tag ∉ message.tags) s₀.proc s₀.chan := by
    constructor
    · rw [sameProc]
      exact owned.idle.processes
    · exact fun i j message old => owned.idle.messages i j message (remaining i j message old)
  have elsewhere : ∀ new : Process n Tag Item, ∀ q, q ≠ pid →
      Function.update s₀.proc pid new q = s.proc q := by
    intro new q different
    rw [Function.update_of_ne different, sameProc]
  have keptArriving : ∀ sent new onPuts q item, q ≠ pid → Arriving s q tag item q →
      Arriving { s₀.apply pid (new, sent) with onPuts := onPuts } q tag item q := by
    intro sent new onPuts q item different arriving
    apply arriving.mono
    · change _ → _ ∈ (Function.update s₀.proc pid new q).putting
      rw [elsewhere new q different]
      exact id
    · intro i message _ old
      exact Channels.mem_send.mpr (.inl (kept i q different message old))
  rcases putOrDelete_cases tuner pid process tag item o with
    ⟨zero, -, -⟩ | ⟨present, found⟩ | ⟨absent, -, entry, hasItem, -, -, -, count, found⟩
  · have countIsNotZero : noGetCount ≠ 0 := by decide
    exact absurd (uncounted.symm.trans zero) countIsNotZero
  · simp only [State.insertAt, found]
    refine owned.arrived isOwner (idleBefore.apply idle idle_nil) ?_ ?_ (elsewhere process)
      (by rw [← sameHistory]; rfl) ?_ (keptArriving [] process _)
    · simpa [State.apply] using present
    · rw [sameEntry] at present
      simpa [State.apply, sameEntry] using owned.uncounted pid present
    · rw [sameEntry] at present
      simp [State.putCalls, sameCalls, present]
  · have newEntry : (process.setEntry tag (some entry)).entry tag = entry := by
      rw [entry_setEntry, if_pos rfl]
    rw [if_pos uncounted] at count
    rw [sameEntry] at absent
    simp only [State.insertAt, found]
    refine owned.arrived isOwner (idleBefore.apply ⟨idle.getList, idle.sers, idle.erasedSer⟩ ?_)
      ?_ ?_ (elsewhere _) (by rw [← sameHistory]; rfl) ?_ (keptArriving _ _ _)
    · intro target message membership
      split at membership
      · exact plain_deliver.idle target message membership
      · cases membership
    · simp [State.apply, newEntry, hasItem]
    · simpa [State.apply, newEntry] using count
    · by_cases own : o = pid <;> simp [State.putCalls, sameCalls, own, absent]

omit [DecidableEq Tag] in
theorem deliverPut_reaches_owner {item : Item} {consumers : Consumers n} {o : Fin n} {here : Bool}
    (delivered : deliverPut pid tag item consumers = some (o, here, sent)) :
    (o = pid ∧ here = true) ∨ (o, .deliver o tag item) ∈ sent ∨
      (o, .deliverToOwn tag item) ∈ sent := by
  unfold deliverPut at delivered
  split at delivered
  · cases delivered
    exact .inl ⟨rfl, rfl⟩
  rename_i several
  have single : ∀ consumer, deliverToConsumer pid tag item consumer = (o, here, sent) →
      (o = pid ∧ here = true) ∨ (o, .deliver o tag item) ∈ sent ∨
        (o, .deliverToOwn tag item) ∈ sent := by
    intro consumer equal
    cases consumer with
    | pid other =>
        simp only [deliverToConsumer] at equal
        split at equal
        · cases equal
          exact .inl ⟨rfl, rfl⟩
        · cases equal
          exact .inr (.inr (List.mem_singleton.mpr rfl))
    | unknown =>
        cases equal
        exact .inl ⟨rfl, rfl⟩
    | here =>
        cases equal
        exact .inl ⟨rfl, rfl⟩
    | all =>
        cases equal
        exact .inl ⟨rfl, rfl⟩
    | allOthers =>
        cases equal
        have different : nextPid pid ≠ pid := by
          intro same
          have values := congrArg Fin.val same
          simp only [nextPid] at values
          rcases Nat.lt_or_ge (pid + 1) n with inside | outside
          · rw [Nat.mod_eq_of_lt inside] at values
            omega
          · have last : (pid : Nat) + 1 = n := by omega
            rw [last, Nat.mod_self] at values
            omega
        exact .inr (.inl (mem_broadcast.mpr ⟨different, rfl⟩))
  unfold deliverToConsumers at delivered
  split at delivered
  · exact single _ (Option.some.inj delivered)
  · cases delivered
    exact .inl ⟨rfl, rfl⟩
  · exact single _ (Option.some.inj delivered)
  · split at delivered
    · cases delivered
      by_cases same : o = pid
      · exact .inl ⟨same, by simp [same]⟩
      · exact .inr (.inl (mem_deliver.mpr ⟨List.mem_cons_self, same, rfl⟩))
    · cases delivered

theorem Owned.uncalled_of_unassigned (owned : Owned tag s)
    (unassigned : s.history.owner tag = none) : s.putCalls tag = [] := by
  apply owned.uncalled
  intro o isOwner
  rw [unassigned] at isOwner
  cases isOwner

theorem Owned.put {tuner : Tuner n Tag} (owned : Owned tag s) (sound : Sound tag s) {other : Tag}
    {item : Item} {o : Fin n} {here : Bool} (once : other = tag → s.history.owner tag = none)
    (delivered : deliverPut pid other item (tuner.consumedOn other) = some (o, here, sent)) :
    Owned tag { s.apply pid
        ({ s.proc pid with
          putting := if here then (other, item, o) :: (s.proc pid).putting
            else (s.proc pid).putting }, sent) with
      history := s.history.assign other item o } := by
  have idle := owned.idle.processes pid
  have plain : Sent.Plain sent := by
    intro target message membership
    obtain ⟨-, rfl | ⟨rfl, -⟩⟩ := mem_deliverPut delivered membership <;> rfl
  by_cases same : other = tag
  · subst same
    have unassigned := once rfl
    have nowhere : ∀ q, ((s.proc q).entry other).item = none := by
      intro q
      have known := sound.ofProcess q
      cases found : ((s.proc q).entry other).owner with
      | none =>
          have owned := known.owned
          rw [found] at owned
          exact Option.isSome_eq_false_iff.mp owned |> Option.isNone_iff_eq_none.mp
      | some p =>
          have assigned := known.ownerAgrees p found
          rw [unassigned] at assigned
          cases assigned
    set process : Process n Tag Item := { s.proc pid with
      putting := if here then (other, item, o) :: (s.proc pid).putting
        else (s.proc pid).putting } with isProcess
    have entries : ∀ q, (Function.update s.proc pid process q).entry other =
        (s.proc q).entry other := by
      intro q
      by_cases same : q = pid
      · subst same
        rw [Function.update_self]
        rfl
      · rw [Function.update_of_ne same]
    refine ⟨owned.idle.apply ⟨idle.getList, idle.sers, idle.erasedSer⟩ plain.idle, ?_, ?_, ?_, ?_⟩
    · intro q present
      exact absurd ((congrArg Entry.item (entries q)).trans (nowhere q)) present
    · intro p isOwner _
      obtain rfl : o = p := by simpa [History.assign] using isOwner
      refine ⟨item, ?_⟩
      rcases deliverPut_reaches_owner delivered with ⟨rfl, isHere⟩ | sentThere | sentThere
      · refine .putting ?_
        simp [State.apply, isProcess, isHere]
      · exact .deliver (Channels.mem_send.mpr (.inr ⟨rfl, sentThere⟩))
      · exact .deliverToOwn (Channels.mem_send.mpr (.inr ⟨rfl, sentThere⟩)) rfl
    · intro p _ present
      exact absurd ((congrArg Entry.item (entries p)).trans (nowhere p)) present
    · intro _
      exact owned.uncalled_of_unassigned unassigned
  · have aside : Aside tag (s.proc pid) ({ s.proc pid with
        putting := if here then (other, item, o) :: (s.proc pid).putting
          else (s.proc pid).putting }, sent) :=
      aside_of_table rfl ⟨idle.getList, idle.sers, idle.erasedSer⟩ plain.idle
    refine owned.aside .refl aside ?_ rfl rfl ?_ rfl
    · intro v p pending
      dsimp only
      split
      · exact List.mem_cons_of_mem _ pending
      · exact pending
    · simp [History.assign, Ne.symm same]

theorem Owned.waits (owned : Owned tag s) (passes : Passes tag s s₀)
    (kept : Kept (s.proc pid) process) (plain : Sent.Plain sent)
    (unlisted : tag ∉ process.getList) (putting : process.putting = (s.proc pid).putting)
    (proc : next.proc = Function.update s₀.proc pid process)
    (chan : next.chan = s₀.chan.send pid sent)
    (owner : next.history.owner tag = s.history.owner tag)
    (calls : next.putCalls tag = s.putCalls tag) : Owned tag next := by
  have idle := owned.idle.processes pid
  refine owned.quiet passes (kept.item tag) ?_ ⟨unlisted, ?_, ?_⟩ plain.idle ?_ proc chan owner
    calls
  · intro present
    rw [kept.item] at present
    rw [kept.getCount]
    exact owned.uncounted pid present
  · rw [kept.sers]
    exact idle.sers
  · rw [kept.erasedSer]
    exact idle.erasedSer
  · rw [putting]
    exact fun _ _ => id

theorem get_putting (tuner : Tuner n Tag) (self : Fin n) (process : Process n Tag Item)
    (tag : Tag) : (get tuner self process tag).1.putting = process.putting := by
  rcases get_cases tuner self process tag with ⟨_, -, found | ⟨-, found⟩⟩ | ⟨-, found⟩ <;> rw [found]
  all_goals rfl

theorem getFromEnv_putting (self : Fin n) (process : Process n Tag Item) (tag : Tag) :
    (getFromEnv self process tag).1.putting = process.putting := by
  rcases getFromEnv_cases self process tag with ⟨-, found⟩ | ⟨-, found⟩ <;> rw [found]
  all_goals rfl

theorem getRequest_putting (self : Fin n) (process : Process n Tag Item) (tag : Tag)
    (recpnt : Fin n) : (getRequest self process tag recpnt).1.putting = process.putting := by
  rcases getRequest_cases self process tag recpnt with
    ⟨_, -, -, found⟩ | ⟨-, -, found⟩ | ⟨-, found⟩ <;> rw [found]
  all_goals rfl

theorem putOrDelete_putting (tuner : Tuner n Tag) (self : Fin n) (process : Process n Tag Item)
    (tag : Tag) (item : Item) (owner : Fin n) :
    (putOrDelete tuner self process tag item owner).1.putting = process.putting := by
  rcases putOrDelete_cases tuner self process tag item owner with
    ⟨-, -, found⟩ | ⟨-, found⟩ | ⟨-, -, entry, -, -, -, -, -, found⟩ <;> rw [found]
  all_goals rfl

omit [DecidableEq Tag] in
theorem sendErased_putting (tuner : Tuner n Tag) (self : Fin n) (process : Process n Tag Item)
    (enterSafe : Bool) : (sendErased tuner self process enterSafe).1.putting = process.putting := by
  rcases sendErased_cases tuner self process enterSafe with found | found <;> rw [found]

theorem decrementRefCount_putting {tuner : Tuner n Tag} {self : Fin n} {send : Bool}
    {result : Process n Tag Item × Sent n Tag Item}
    (decremented : decrementRefCount tuner self process tag send = some result) :
    result.1.putting = process.putting := by
  obtain ⟨entry, -, -, -, -, -, ⟨-, rfl⟩ | ⟨-, rfl⟩⟩ := decrementRefCount_cases decremented
  · rcases addErased_cases tuner self (process.setEntry tag none) tag send with
      ⟨-, added⟩ | added | added <;> rw [added] <;> rfl
  · rfl

theorem collect_putting {tuner : Tuner n Tag} {self : Fin n}
    {result : Process n Tag Item × Sent n Tag Item}
    (collects : collect tuner self process tag = some result) :
    result.1.putting = process.putting := by
  obtain ⟨owner, -, -, -, -, numgc, rfl | rfl⟩ := collect_cases collects <;> rfl

theorem putCalls_insertAt_other {tuner : Tuner n Tag} {other : Tag} (different : tag ≠ other)
    (item : Item) (o : Fin n) :
    (s₀.insertAt tuner pid process other item o).putCalls tag = s₀.putCalls tag := by
  simp only [State.insertAt, State.putCalls]
  split
  · simp [Ne.symm different]
  · rfl

theorem Owned.recvMsg {tuner : Tuner n Tag} (owned : Owned tag s) (sound : Sound tag s)
    (uncounted : tuner.getCount tag = noGetCount) {source target : Fin n}
    {message : Msg n Tag Item} {rest : List (Msg n Tag Item)}
    (head : s.chan source target = message :: rest)
    (received : s.recvMsg tuner source target rest message = some next) : Owned tag next := by
  have idle := owned.idle.processes target
  have membership : message ∈ s.chan source target := head ▸ List.mem_cons_self
  have unlisted : tag ∉ message.tags := owned.idle.messages source target message membership
  have known := sound.ofMessage membership
  have remaining : ∀ i j, ∀ other ∈ (s.setQueue source target rest).chan i j,
      other ∈ s.chan i j :=
    fun i j other old => Channels.mem_of_mem_setQueue_tail head old
  have kept : ∀ i j, j ≠ target → ∀ other ∈ s.chan i j,
      other ∈ (s.setQueue source target rest).chan i j := by
    intro i j different other old
    simpa [State.setQueue, Channels.setQueue, different] using old
  cases message with
  | request other recpnt =>
      cases received
      obtain ⟨same, plain⟩ := getRequest_kept target (s.proc target) other recpnt
      refine owned.waits (passes_tail head id) same plain ?_
        (getRequest_putting target (s.proc target) other recpnt) rfl rfl rfl rfl
      rcases getRequest_cases target (s.proc target) other recpnt with
        ⟨_, -, -, found⟩ | ⟨-, -, found⟩ | ⟨-, found⟩ <;> rw [found]
      · exact idle.getList
      · exact idle.getList
      · exact idle.getList
  | deliver o other item =>
      cases received
      by_cases same : tag = other
      · subst same
        exact owned.insert uncounted (known rfl).1 rfl idle rfl rfl rfl remaining kept
      · refine owned.aside (passes_tail head (Ne.symm same))
          (aside_putOrDelete tuner target idle same item o) ?_ rfl rfl rfl
          (putCalls_insertAt_other same item o)
        rw [putOrDelete_putting]
        exact fun _ _ => id
  | deliverToOwn other item =>
      cases received
      by_cases same : tag = other
      · subst same
        exact owned.insert uncounted (known rfl).1 rfl idle rfl rfl rfl remaining kept
      · refine owned.aside (passes_tail head (Ne.symm same))
          (aside_putOrDelete tuner target idle same item target) ?_ rfl rfl rfl
          (putCalls_insertAt_other same item target)
        rw [putOrDelete_putting]
        exact fun _ _ => id
  | getCounts pid tags enterSafe =>
      cases tags with
      | nil =>
          cases received
          refine owned.aside (passes_tail head id) ?_ ?_ rfl rfl rfl rfl
          · cases enterSafe with
            | true =>
                exact aside_of_table rfl ⟨idle.getList, idle.sers, idle.erasedSer⟩ idle_nil
            | false => exact aside_sendErased tuner target idle false
          · cases enterSafe with
            | true => exact fun _ _ => id
            | false =>
                simp only [Bool.false_eq_true, if_false]
                rw [sendErased_putting]
                exact fun _ _ => id
      | cons other tags =>
          obtain ⟨different, notLater⟩ := not_or.mp (mt List.mem_cons.mpr unlisted)
          have passes : Passes tag s (s.setQueue source target
              (.getCounts pid tags enterSafe :: rest)) := by
            apply passes_setQueue head id (fun _ old => List.mem_cons_of_mem _ old)
            intro message queued
            rcases List.mem_cons.mp queued with rfl | old
            · exact .inr notLater
            · exact .inl old
          simp only [State.recvMsg, State.decrementAt] at received
          split at received
          · cases received
          · rename_i decremented
            cases received
            refine owned.aside passes (aside_decrementRefCount idle different decremented) ?_ rfl rfl
              rfl rfl
            rw [decrementRefCount_putting decremented]
            exact fun _ _ => id
  | erase tags enterSafe =>
      cases tags with
      | nil =>
          cases received
          refine owned.aside (passes_tail head id) ?_ ?_ rfl rfl rfl rfl
          · split
            · exact aside_of_table rfl ⟨idle.getList, idle.sers, idle.erasedSer⟩ idle_nil
            · exact aside_of_table rfl idle idle_nil
          · intro v p pending
            dsimp only
            split <;> exact pending
      | cons other tags =>
          cases received
          obtain ⟨different, notLater⟩ := not_or.mp (mt List.mem_cons.mpr unlisted)
          have passes : Passes tag s (s.setQueue source target
              (.erase tags enterSafe :: rest)) := by
            apply passes_setQueue head id (fun _ old => List.mem_cons_of_mem _ old)
            intro message queued
            rcases List.mem_cons.mp queued with rfl | old
            · exact .inr notLater
            · exact .inl old
          exact owned.aside passes (idle.aside different none idle_nil) (fun _ _ => id) rfl rfl rfl
            rfl

variable [DecidableEq Item]

theorem Owned.step {tuner : Tuner n Tag} {action : Action n Tag Item} (owned : Owned tag s)
    (sound : Sound tag s) (uncounted : tuner.getCount tag = noGetCount)
    (once : PutOnce tag s action) (stepped : step tuner s action = some next) :
    Owned tag next := by
  cases action with
  | get pid other =>
      cases stepped
      have idle := owned.idle.processes pid
      obtain ⟨kept, plain⟩ := get_kept tuner pid (s.proc pid) other
      refine owned.waits .refl kept plain ?_ (get_putting tuner pid (s.proc pid) other) rfl rfl ?_ rfl
      · rcases get_cases tuner pid (s.proc pid) other with
          ⟨item, present, found | ⟨counted, found⟩⟩ | ⟨-, found⟩ <;> rw [found]
        · exact idle.getList
        · have different : tag ≠ other := by
            rintro rfl
            exact counted (owned.uncounted pid (by simp [present]))
          simp [different, idle.getList]
        · exact idle.getList
      · simp only [State.getAt]
        split <;> rfl
  | getFromEnv pid other =>
      cases stepped
      have idle := owned.idle.processes pid
      obtain ⟨kept, plain⟩ := getFromEnv_kept pid (s.proc pid) other
      refine owned.waits .refl kept plain ?_ (getFromEnv_putting pid (s.proc pid) other) rfl rfl ?_
        rfl
      · rcases getFromEnv_cases pid (s.proc pid) other with ⟨-, found⟩ | ⟨-, found⟩ <;> rw [found]
        · exact idle.getList
        · exact idle.getList
      · simp only [State.getAt]
        split <;> rfl
  | put pid other item =>
      simp only [CnC.Item.step] at stepped
      split at stepped
      · cases stepped
      · rename_i delivered
        cases stepped
        exact owned.put sound once delivered
  | insert pid other item o =>
      simp only [CnC.Item.step, Option.ite_none_right_eq_some, Option.some.injEq] at stepped
      obtain ⟨pending, rfl⟩ := stepped
      have idle := owned.idle.processes pid
      have changed : ({ s.proc pid with putting := (s.proc pid).putting.erase (other, item, o) } :
          Process n Tag Item).Idle tag := ⟨idle.getList, idle.sers, idle.erasedSer⟩
      by_cases same : tag = other
      · subst same
        exact owned.insert uncounted ((sound.ofProcess pid).putting item o pending).1 rfl changed rfl
          rfl rfl (fun _ _ _ => id) (fun _ _ _ _ => id)
      · have aside := aside_putOrDelete tuner pid changed same item o
        refine owned.aside .refl ⟨aside.entry, aside.idle, aside.sent⟩ ?_ rfl rfl rfl
          (putCalls_insertAt_other same item o)
        intro v p listed
        rw [putOrDelete_putting]
        exact (List.mem_erase_of_ne fun equal => same (congrArg Prod.fst equal)).mpr listed
  | commit pid other =>
      simp only [CnC.Item.step, Option.ite_none_right_eq_some, State.decrementAt] at stepped
      obtain ⟨listed, decremented⟩ := stepped
      have idle := owned.idle.processes pid
      have different : tag ≠ other := by
        rintro rfl
        exact idle.getList listed
      split at decremented
      · cases decremented
      · rename_i result found
        cases decremented
        have changed : ({ s.proc pid with getList := (s.proc pid).getList.erase other } :
            Process n Tag Item).Idle tag :=
          ⟨fun later => idle.getList (List.mem_of_mem_erase later), idle.sers, idle.erasedSer⟩
        have aside := aside_decrementRefCount changed different found
        refine owned.aside .refl ⟨aside.entry, aside.idle, aside.sent⟩ ?_ rfl rfl rfl rfl
        rw [decrementRefCount_putting found]
        exact fun _ _ => id
  | clear pid other =>
      cases stepped
      have idle := owned.idle.processes pid
      have aside : Aside tag (s.proc pid)
          ({ s.proc pid with getList := (s.proc pid).getList.erase other }, []) :=
        aside_of_table rfl ⟨fun later => idle.getList (List.mem_of_mem_erase later), idle.sers,
          idle.erasedSer⟩ idle_nil
      exact owned.aside .refl aside (fun _ _ => id) rfl rfl rfl rfl
  | collect pid other =>
      simp only [CnC.Item.step] at stepped
      split at stepped
      · cases stepped
      · rename_i collects
        cases stepped
        have different : tag ≠ other := by
          rintro rfl
          obtain ⟨owner, hasOwner, -, -, counted, -⟩ := collect_cases collects
          have known := (sound.ofProcess pid).owned
          apply counted
          apply owned.uncounted pid
          intro absent
          simp [hasOwner, absent] at known
        refine owned.aside .refl (aside_collect (owned.idle.processes pid) different collects) ?_ rfl
          rfl rfl rfl
        rw [collect_putting collects]
        exact fun _ _ => id
  | sendGetcounts pid enterSafe =>
      cases stepped
      exact owned.aside .refl (aside_sendGetcounts pid (owned.idle.processes pid) enterSafe)
        (fun _ _ => id) rfl rfl rfl rfl
  | sendErased pid enterSafe =>
      cases stepped
      refine owned.aside .refl (aside_sendErased tuner pid (owned.idle.processes pid) enterSafe) ?_
        rfl rfl rfl rfl
      rw [sendErased_putting]
      exact fun _ _ => id
  | receive source target =>
      simp only [CnC.Item.step] at stepped
      split at stepped
      · cases stepped
      · rename_i head
        exact owned.recvMsg sound uncounted head stepped

end Owned

end CnC.Item
