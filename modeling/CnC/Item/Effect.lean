import CnC.Item.Operations

/-!
# The effects of the steps

A step of the item collection has one effect as far as get-counts are concerned,
and may flush the collected get-counts or the erase list after it.  Invariants
about garbage collection are proved for the effects.
-/

namespace CnC.Item

open Network Transition

universe u

variable {n : Nat} {Tag Item : Type u}

def Msg.tags : Msg n Tag Item → List Tag
  | .getCounts _ tags _ => tags
  | .erase tags _ => tags
  | _ => []

def Sent.Plain (sent : Sent n Tag Item) : Prop :=
  ∀ target message, (target, message) ∈ sent → message.tags = []

theorem Sent.plain_nil : Sent.Plain ([] : Sent n Tag Item) := by
  intro target message membership
  cases membership

/-- What the garbage collection reads of a process stays as it is.  Only items
with a get-count are added to the get list. -/
structure Kept (process next : Process n Tag Item) : Prop where
  item : ∀ tag, (next.entry tag).item = (process.entry tag).item
  owner : ∀ tag, (next.entry tag).owner = (process.entry tag).owner
  getCount : ∀ tag, (next.entry tag).getCount = (process.entry tag).getCount
  getList : ∀ tag ∈ next.getList, tag ∈ process.getList ∨
    (process.entry tag).item ≠ none ∧ (process.entry tag).getCount ≠ noGetCount
  sers : next.sers = process.sers
  erasedSer : next.erasedSer = process.erasedSer

theorem Kept.recorded {process next : Process n Tag Item} (kept : Kept process next) (tag : Tag) :
    (next.entry tag).recorded = (process.entry tag).recorded := by
  rw [Entry.recorded, Entry.recorded, kept.getCount]

theorem Kept.refl (process : Process n Tag Item) : Kept process process :=
  ⟨fun _ => rfl, fun _ => rfl, fun _ => rfl, fun _ => .inl, rfl, rfl⟩

theorem Kept.of_table {process next : Process n Tag Item} (table : next.table = process.table)
    (getList : next.getList ⊆ process.getList) (sers : next.sers = process.sers)
    (erasedSer : next.erasedSer = process.erasedSer) : Kept process next := by
  have same : ∀ tag, next.entry tag = process.entry tag := fun tag => by
    simp only [Process.entry, table]
  exact ⟨fun tag => by rw [same], fun tag => by rw [same], fun tag => by rw [same],
    fun tag listed => .inl (getList listed), sers, erasedSer⟩

theorem Kept.update {proc : Fin n → Process n Tag Item} {pid : Fin n}
    {process : Process n Tag Item} (kept : Kept (proc pid) process) (other : Fin n) :
    Kept (proc other) (Function.update proc pid process other) := by
  by_cases same : other = pid
  · subst same
    simpa using kept
  · simpa [same] using Kept.refl (proc other)

inductive Pops (s : State n Tag Item) : State n Tag Item → Prop
  | none : Pops s s
  | head {source target message rest} : s.chan source target = message :: rest →
      message.tags = [] → Pops s (s.setQueue source target rest)

theorem Pops.same {s s₀ : State n Tag Item} (pops : Pops s s₀) :
    s₀.proc = s.proc ∧ s₀.history = s.history ∧ s₀.onPuts = s.onPuts := by
  cases pops <;> exact ⟨rfl, rfl, rfl⟩

/-- A decrement comes from a committed execution or from the first tag of a
`GET_COUNTS` message. -/
inductive Origin [DecidableEq Tag] (s : State n Tag Item) (pid : Fin n) (tag : Tag) :
    State n Tag Item → Prop
  | committed : tag ∈ (s.proc pid).getList →
      Origin s pid tag { s with history := s.history.commit tag }
  | received {source from_ tags enterSafe rest} :
      s.chan source pid = .getCounts from_ (tag :: tags) enterSafe :: rest →
      Origin s pid tag (s.setQueue source pid (.getCounts from_ tags enterSafe :: rest))

/-- The histories agree, except for the suspended gets. -/
structure SameHistory (history next : History n Tag Item) : Prop where
  owner : next.owner = history.owner
  committed : next.committed = history.committed
  applied : next.applied = history.applied
  collected : next.collected = history.collected
  erased : next.erased = history.erased

theorem SameHistory.refl (history : History n Tag Item) : SameHistory history history :=
  ⟨rfl, rfl, rfl, rfl, rfl⟩

def storing (s : State n Tag Item) :
    Action n Tag Item → Option (Fin n × Tag × Item × Fin n)
  | .insert pid tag item owner => some (pid, tag, item, owner)
  | .receive source target =>
      match s.chan source target with
      | .deliver owner tag item :: _ => some (target, tag, item, owner)
      | .deliverToOwn tag item :: _ => some (target, tag, item, target)
      | _ => none
  | _ => none

/-- An item is on its way into the table of a process: a put has assigned its
owner, and the process has still to insert it or to receive it. -/
inductive Arriving (s : State n Tag Item) (pid : Fin n) (tag : Tag) (item : Item)
    (owner : Fin n) : Prop
  | putting : (tag, item, owner) ∈ (s.proc pid).putting → Arriving s pid tag item owner
  | deliver {source} : .deliver owner tag item ∈ s.chan source pid →
      Arriving s pid tag item owner
  | deliverToOwn {source} : .deliverToOwn tag item ∈ s.chan source pid → owner = pid →
      Arriving s pid tag item owner

section Effects

variable [DecidableEq Tag] (tuner : Tuner n Tag)

inductive Effect (s : State n Tag Item) (action : Action n Tag Item) : State n Tag Item → Prop
  | quiet {s₀ pid process sent onPuts history} : Pops s s₀ →
      Kept (s.proc pid) process → Sent.Plain sent →
      (onPuts = s.onPuts ∨ ∃ tag, tuner.getCount tag = 0 ∧ onPuts = (pid, tag) :: s.onPuts) →
      SameHistory s.history history →
      Effect s action { s₀.apply pid (process, sent) with onPuts := onPuts, history := history }
  | put {pid process tag item owner sent} : action = .put pid tag item →
      Kept (s.proc pid) process → Sent.Plain sent →
      Effect s action
        { s.apply pid (process, sent) with history := s.history.assign tag item owner }
  | insert {s₀ pid process tag item owner sent} {entry : Entry n Item} : Pops s s₀ →
      storing s action = some (pid, tag, item, owner) → Arriving s pid tag item owner →
      Kept (s.proc pid) process → (process.entry tag).item = none → entry.item = some item →
      entry.owner = some owner →
      entry.getCount = (if tuner.getCount tag = noGetCount then noGetCount else
        ((process.entry tag).setOrIncrementGetCount
          (if owner = pid then tuner.getCount tag else 0)).1.getCount) →
      (tuner.getCount tag ≠ 0 ∨ owner ≠ pid) → Sent.Plain sent →
      Effect s action
        { s₀.apply pid (process.setEntry tag (some entry), sent) with
          onPuts := if owner = pid then (pid, tag) :: s.onPuts else s.onPuts }
  | record {s₀ pid process tag} {entry : Entry n Item} : Origin s pid tag s₀ →
      Kept (s.proc pid) process →
      entry.item = (process.entry tag).item → entry.owner = (process.entry tag).owner →
      entry.recorded = (process.entry tag).recorded → entry.recorded ≠ 1 →
      Effect s action
        { s₀.apply pid
            (process.setEntry tag (some (entry.setOrIncrementGetCount (-1)).1), []) with
          history := s₀.history.decrement pid tag false }
  | gone {s₀ pid process tag erasedSer} : Origin s pid tag s₀ → Kept (s.proc pid) process →
      (process.entry tag).recorded = 1 →
      ((¬ (n > 1 ∧ ¬ amOnlyConsumer pid (tuner.consumedOn tag)) ∧
          erasedSer = process.erasedSer) ∨
        erasedSer = some (process.erasedSer.getD [] ++ [tag])) →
      Effect s action
        { s₀.apply pid ({ process.setEntry tag none with erasedSer := erasedSer }, []) with
          history := s₀.history.decrement pid tag true }
  | collect {pid tag owner numgc} : ((s.proc pid).entry tag).owner = some owner →
      ((s.proc pid).entry tag).recorded < 0 →
      ((s.proc pid).entry tag).recorded = ((s.proc pid).entry tag).getCount →
      ((s.proc pid).entry tag).getCount ≠ noGetCount →
      Effect s action
        (s.apply pid ({ getCountCollect (s.proc pid) tag owner with numgc := numgc }, []))
  | erase {source target tag tags enterSafe rest} :
      s.chan source target = .erase (tag :: tags) enterSafe :: rest →
      Effect s action
        { (s.setQueue source target (.erase tags enterSafe :: rest)).apply target
            (eraseAlien (s.proc target) tag, []) with
          history := s.history.erase target tag }

inductive Flush (s : State n Tag Item) : State n Tag Item → Prop
  | none : Flush s s
  | counts (pid enterSafe numgc) :
      Flush s (s.apply pid ({ (sendGetcounts pid (s.proc pid) enterSafe).1 with numgc := numgc },
        (sendGetcounts pid (s.proc pid) enterSafe).2))
  | erased (pid enterSafe) :
      Flush s (s.apply pid ({ s.proc pid with erasedSer := none },
        broadcast pid (.erase ((s.proc pid).erasedSer.getD []) enterSafe)))

end Effects

section Steps

variable {s : State n Tag Item}

theorem Flush.entry {next : State n Tag Item} (flush : Flush s next) (pid : Fin n) (tag : Tag) :
    (next.proc pid).entry tag = (s.proc pid).entry tag := by
  cases flush with
  | none => rfl
  | counts p enterSafe numgc =>
      by_cases same : pid = p
      · subst same
        simp [State.apply, sendGetcounts, Process.entry]
      · simp [State.apply, same]
  | erased p enterSafe =>
      by_cases same : pid = p
      · subst same
        simp [State.apply, Process.entry]
      · simp [State.apply, same]

theorem Flush.history {next : State n Tag Item} (flush : Flush s next) :
    next.history = s.history ∧ next.onPuts = s.onPuts := by
  cases flush <;> exact ⟨rfl, rfl⟩

theorem flush_erased (pid : Fin n) (process : Process n Tag Item)
    (history : History n Tag Item) (enterSafe : Bool) :
    Flush { s.apply pid (process, []) with history := history }
      { s.apply pid ({ process with erasedSer := none },
          broadcast pid (.erase (process.erasedSer.getD []) enterSafe)) with
        history := history } := by
  have flush : Flush { s.apply pid (process, []) with history := history } _ :=
    .erased pid enterSafe
  simpa [State.apply] using flush

theorem flush_counts (pid : Fin n) (process : Process n Tag Item) (enterSafe : Bool)
    (numgc : Nat) :
    Flush (s.apply pid (process, []))
      (s.apply pid ({ (sendGetcounts pid process enterSafe).1 with numgc := numgc },
        (sendGetcounts pid process enterSafe).2)) := by
  have flush : Flush (s.apply pid (process, [])) _ :=
    .counts pid enterSafe numgc
  simpa [State.apply] using flush

theorem plain_putRequest {self : Fin n} (tag : Tag) (producer : Producer n) :
    Sent.Plain (putRequest self tag producer : Sent n Tag Item) := by
  intro target message membership
  obtain ⟨-, rfl⟩ := mem_putRequest membership
  rfl

variable [DecidableEq Tag] {tuner : Tuner n Tag}

theorem kept_wait {process : Process n Tag Item} {tag : Tag} {entry : Entry n Item}
    (sameItem : entry.item = (process.entry tag).item)
    (sameOwner : entry.owner = (process.entry tag).owner)
    (sameCount : entry.getCount = (process.entry tag).getCount) :
    Kept process (process.setEntry tag (some entry)) := by
  have cases : ∀ other, (process.setEntry tag (some entry)).entry other =
      if other = tag then entry else process.entry other :=
    fun other => entry_setEntry process tag other entry
  refine ⟨?_, ?_, ?_, fun _ => .inl, rfl, rfl⟩ <;> intro other <;> rw [cases] <;> split
  · rename_i same
    rw [same, sameItem]
  · rfl
  · rename_i same
    rw [same, sameOwner]
  · rfl
  · rename_i same
    rw [same, sameCount]
  · rfl

theorem get_kept (tuner : Tuner n Tag) (self : Fin n) (process : Process n Tag Item)
    (tag : Tag) : Kept process (get tuner self process tag).1 ∧
      Sent.Plain (get tuner self process tag).2 := by
  rcases get_cases tuner self process tag with
    ⟨_, present, found | ⟨counted, found⟩⟩ | ⟨-, found⟩ <;> rw [found]
  · exact ⟨.refl _, Sent.plain_nil⟩
  · refine ⟨⟨fun _ => rfl, fun _ => rfl, fun _ => rfl, fun other listed => ?_, rfl, rfl⟩,
      Sent.plain_nil⟩
    rcases List.mem_cons.mp listed with rfl | old
    · exact .inr ⟨by simp [present], counted⟩
    · exact .inl old
  · refine ⟨kept_wait rfl rfl rfl, ?_⟩
    dsimp only
    split
    · exact plain_putRequest tag _
    · exact Sent.plain_nil

theorem getFromEnv_kept (self : Fin n) (process : Process n Tag Item) (tag : Tag) :
    Kept process (getFromEnv self process tag).1 ∧
      Sent.Plain (getFromEnv self process tag).2 := by
  rcases getFromEnv_cases self process tag with ⟨-, found⟩ | ⟨-, found⟩ <;> rw [found]
  · exact ⟨.refl _, Sent.plain_nil⟩
  · exact ⟨kept_wait rfl rfl rfl, plain_putRequest tag .unknown⟩

theorem getRequest_kept (self : Fin n) (process : Process n Tag Item) (tag : Tag)
    (recpnt : Fin n) : Kept process (getRequest self process tag recpnt).1 ∧
      Sent.Plain (getRequest self process tag recpnt).2 := by
  rcases getRequest_cases self process tag recpnt with
    ⟨item, -, -, found⟩ | ⟨-, -, found⟩ | ⟨-, found⟩ <;> rw [found]
  · refine ⟨.refl _, ?_⟩
    intro target message membership
    cases List.mem_singleton.mp membership
    rfl
  · exact ⟨.refl _, Sent.plain_nil⟩
  · exact ⟨kept_wait rfl rfl rfl, Sent.plain_nil⟩

theorem effect_insertAt {s₀ : State n Tag Item} {action : Action n Tag Item} {pid : Fin n}
    {process : Process n Tag Item} {tag : Tag} {item : Item} {owner : Fin n}
    (pops : Pops s s₀) (stores : storing s action = some (pid, tag, item, owner))
    (arriving : Arriving s pid tag item owner) (kept : Kept (s.proc pid) process) :
    Effect tuner s action (s₀.insertAt tuner pid process tag item owner) := by
  obtain ⟨-, sameHistory, sameOnPuts⟩ := pops.same
  rcases putOrDelete_cases tuner pid process tag item owner with
    ⟨noCount, -, found⟩ | ⟨-, found⟩ | ⟨absent, needed, entry, hasItem, hasOwner, -, -, count, found⟩
  · simp only [State.insertAt, found]
    exact .quiet pops kept Sent.plain_nil (.inr ⟨tag, noCount, by simp [sameOnPuts]⟩)
      (sameHistory ▸ .refl _)
  · simp only [State.insertAt, found]
    exact .quiet pops kept Sent.plain_nil (.inl (by simp [sameOnPuts])) (sameHistory ▸ .refl _)
  · simp only [State.insertAt, found, sameOnPuts, decide_eq_true_eq]
    refine .insert pops stores arriving kept absent hasItem hasOwner count needed ?_
    intro target message membership
    split at membership
    · obtain ⟨-, -, rfl⟩ := mem_deliver.mp membership
      rfl
    · cases membership

/-- A decrement is recorded or uses up the count; then the erase list may be
sent. -/
theorem effect_decrementAt {s₀ next : State n Tag Item} {action : Action n Tag Item}
    {pid : Fin n} {process : Process n Tag Item} {tag : Tag} {send : Bool}
    (origin : Origin s pid tag s₀) (kept : Kept (s.proc pid) process)
    (decremented : s₀.decrementAt tuner pid process tag send = some next) :
    ∃ middle, Effect tuner s action middle ∧ Flush middle next := by
  unfold State.decrementAt at decremented
  cases found : decrementRefCount tuner pid process tag send with
  | none => simp [found] at decremented
  | some result =>
      simp only [found, Option.some.injEq] at decremented
      subst decremented
      obtain ⟨entry, sameItem, sameOwner, -, -, sameCount, ⟨one, rfl⟩ | ⟨notOne, rfl⟩⟩ :=
        decrementRefCount_cases found
      · have usedUp : (process.entry tag).recorded = 1 := sameCount ▸ one
        rcases addErased_cases tuner pid (process.setEntry tag none) tag send with
          ⟨onlyHere, added⟩ | added | added
        · refine ⟨_, .gone origin kept usedUp (.inl ⟨onlyHere, rfl⟩), ?_⟩
          rw [added]
          simp only [Process.setEntry, Function.update_self, Option.isNone_none]
          exact .none
        · refine ⟨_, .gone origin kept usedUp (.inr rfl), ?_⟩
          rw [added]
          simp only [Process.setEntry, Function.update_self, Option.isNone_none]
          exact .none
        · refine ⟨_, .gone origin kept usedUp (.inr rfl), ?_⟩
          rw [added]
          simp only [Process.setEntry, Function.update_self, Option.isNone_none]
          exact flush_erased pid _ _ false
      · refine ⟨_, .record origin kept sameItem sameOwner sameCount notOne, ?_⟩
        simp only [Process.setEntry, Function.update_self, Option.isNone_some]
        exact .none

theorem effect_quiet {s₀ : State n Tag Item} {action : Action n Tag Item} {pid : Fin n}
    {process : Process n Tag Item} {sent : Sent n Tag Item} (pops : Pops s s₀)
    (kept : Kept (s.proc pid) process) (plain : Sent.Plain sent) :
    Effect tuner s action (s₀.apply pid (process, sent)) := by
  obtain ⟨-, sameHistory, sameOnPuts⟩ := pops.same
  exact .quiet pops kept plain (.inl sameOnPuts) (sameHistory ▸ .refl _)

theorem effect_sendErased {s₀ : State n Tag Item} {action : Action n Tag Item} {pid : Fin n}
    {enterSafe : Bool} (pops : Pops s s₀) :
    ∃ middle, Effect tuner s action middle ∧
      Flush middle (s₀.apply pid (sendErased tuner pid (s.proc pid) enterSafe)) := by
  refine ⟨_, effect_quiet pops (.refl (s.proc pid)) Sent.plain_nil, ?_⟩
  rcases sendErased_cases tuner pid (s.proc pid) enterSafe with found | found
  · rw [found]
    exact .none
  · rw [found]
    exact flush_erased pid (s.proc pid) s₀.history enterSafe

theorem effect_recvMsg {source target : Fin n} {message : Msg n Tag Item}
    {rest : List (Msg n Tag Item)} {next : State n Tag Item}
    (head : s.chan source target = message :: rest)
    (received : s.recvMsg tuner source target rest message = some next) :
    ∃ middle, Effect tuner s (.receive source target) middle ∧ Flush middle next := by
  cases message with
  | request tag recpnt =>
      cases received
      obtain ⟨kept, plain⟩ := getRequest_kept target (s.proc target) tag recpnt
      exact ⟨_, effect_quiet (.head head rfl) kept plain, .none⟩
  | deliver owner tag item =>
      cases received
      have stores : storing s (.receive source target) = some (target, tag, item, owner) := by
        simp [storing, head]
      have arriving : Arriving s target tag item owner :=
        .deliver (head ▸ List.mem_cons_self)
      exact ⟨_, effect_insertAt (.head head rfl) stores arriving (.refl _), .none⟩
  | deliverToOwn tag item =>
      cases received
      have stores : storing s (.receive source target) = some (target, tag, item, target) := by
        simp [storing, head]
      have arriving : Arriving s target tag item target :=
        .deliverToOwn (head ▸ List.mem_cons_self) rfl
      exact ⟨_, effect_insertAt (.head head rfl) stores arriving (.refl _), .none⟩
  | getCounts pid tags enterSafe =>
      cases tags with
      | nil =>
          cases received
          cases enterSafe with
          | true =>
              refine ⟨_, effect_quiet (.head head rfl) ?_ Sent.plain_nil, .none⟩
              exact .of_table rfl (List.Subset.refl _) rfl rfl
          | false => exact effect_sendErased (.head head rfl)
      | cons tag tags => exact effect_decrementAt (.received head) (.refl _) received
  | erase tags enterSafe =>
      cases tags with
      | nil =>
          cases received
          refine ⟨_, effect_quiet (.head head rfl) ?_ Sent.plain_nil, .none⟩
          split
          · exact .of_table rfl (List.Subset.refl _) rfl rfl
          · exact .refl _
      | cons tag tags =>
          cases received
          exact ⟨_, .erase head, .none⟩

theorem effect_of_step [DecidableEq Item] {action : Action n Tag Item} {next : State n Tag Item}
    (stepped : step tuner s action = some next) :
    ∃ middle, Effect tuner s action middle ∧ Flush middle next := by
  cases action with
  | get pid tag =>
      cases stepped
      obtain ⟨kept, plain⟩ := get_kept tuner pid (s.proc pid) tag
      refine ⟨_, .quiet .none kept plain (.inl rfl) ?_, .none⟩
      split <;> exact ⟨rfl, rfl, rfl, rfl, rfl⟩
  | getFromEnv pid tag =>
      cases stepped
      obtain ⟨kept, plain⟩ := getFromEnv_kept pid (s.proc pid) tag
      refine ⟨_, .quiet .none kept plain (.inl rfl) ?_, .none⟩
      split <;> exact ⟨rfl, rfl, rfl, rfl, rfl⟩
  | put pid tag item =>
      simp only [CnC.Item.step] at stepped
      split at stepped
      · cases stepped
      · rename_i delivered
        cases stepped
        refine ⟨_, .put rfl ?_ ?_, .none⟩
        · exact .of_table rfl (List.Subset.refl _) rfl rfl
        intro target message membership
        obtain ⟨-, rfl | ⟨rfl, -⟩⟩ := mem_deliverPut delivered membership <;> rfl
  | insert pid tag item owner =>
      simp only [CnC.Item.step, Option.ite_none_right_eq_some, Option.some.injEq] at stepped
      obtain ⟨pending, rfl⟩ := stepped
      refine ⟨_, effect_insertAt .none rfl (.putting pending) ?_, .none⟩
      exact .of_table rfl (List.Subset.refl _) rfl rfl
  | commit pid tag =>
      simp only [CnC.Item.step, Option.ite_none_right_eq_some] at stepped
      refine effect_decrementAt (.committed stepped.1) ?_ stepped.2
      exact .of_table rfl List.erase_subset rfl rfl
  | clear pid tag =>
      cases stepped
      refine ⟨_, effect_quiet .none ?_ Sent.plain_nil, .none⟩
      exact .of_table rfl List.erase_subset rfl rfl
  | collect pid tag =>
      simp only [CnC.Item.step] at stepped
      split at stepped
      · cases stepped
      · rename_i collects
        cases stepped
        obtain ⟨owner, owned, negative, counts, counted, numgc, rfl | rfl⟩ :=
          collect_cases collects
        · exact ⟨_, .collect owned negative counts counted, .none⟩
        · exact ⟨_, .collect owned negative counts counted, flush_counts pid _ false numgc⟩
  | sendGetcounts pid enterSafe =>
      cases stepped
      exact ⟨_, effect_quiet .none (.refl (s.proc pid)) Sent.plain_nil,
        flush_counts pid (s.proc pid) enterSafe (s.proc pid).numgc⟩
  | sendErased pid enterSafe =>
      cases stepped
      exact effect_sendErased .none
  | receive source target =>
      simp only [CnC.Item.step] at stepped
      split at stepped
      · cases stepped
      · rename_i head
        exact effect_recvMsg head stepped

end Steps

end CnC.Item
