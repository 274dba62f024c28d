import CnC.Item.Ownership

/-!
# Requesting items

An item whose consumers are not specified stays where it was put.  The first
get on another process which misses it sends a request to the producer, or to
everybody if the producer is not known.  The producer answers with the item, at
once or when it has been put.  `requests_answered` proves that no request is
lost.
-/

namespace CnC.Item

open Network Transition

universe u

variable {n : Nat} {Tag Item : Type u} {process : Process n Tag Item} {self : Fin n} {tag : Tag}

/-- The outcome of an operation which is not about the tag. -/
structure Aside (tag : Tag) (process : Process n Tag Item)
    (result : Process n Tag Item × Sent n Tag Item) : Prop where
  entry : result.1.entry tag = process.entry tag
  idle : result.1.Idle tag
  sent : Sent.Idle tag result.2

theorem aside_of_table {next : Process n Tag Item} {sent : Sent n Tag Item}
    (table : next.table = process.table) (idle : next.Idle tag) (sentIdle : Sent.Idle tag sent) :
    Aside tag process (next, sent) :=
  ⟨by simp only [Process.entry, table], idle, sentIdle⟩

section Operations

variable [DecidableEq Tag] {tuner : Tuner n Tag} {other : Tag}

theorem Process.Idle.aside (idle : process.Idle tag) (different : tag ≠ other)
    (entry : Option (Entry n Item)) {sent : Sent n Tag Item} (sentIdle : Sent.Idle tag sent) :
    Aside tag process (process.setEntry other entry, sent) where
  entry := by simp [Process.entry, Process.setEntry, different]
  idle := ⟨idle.getList, idle.sers, idle.erasedSer⟩
  sent := sentIdle

theorem aside_get (tuner : Tuner n Tag) (self : Fin n) (idle : process.Idle tag)
    (different : tag ≠ other) : Aside tag process (get tuner self process other) := by
  obtain ⟨-, plain⟩ := get_kept tuner self process other
  rcases get_cases tuner self process other with ⟨_, -, found | ⟨-, found⟩⟩ | ⟨-, found⟩ <;>
    rw [found] at plain ⊢
  · exact aside_of_table rfl idle plain.idle
  · refine aside_of_table rfl ⟨?_, idle.sers, idle.erasedSer⟩ plain.idle
    simp [different, idle.getList]
  · exact idle.aside different _ plain.idle

theorem aside_getFromEnv (self : Fin n) (idle : process.Idle tag) (different : tag ≠ other) :
    Aside tag process (getFromEnv self process other) := by
  obtain ⟨-, plain⟩ := getFromEnv_kept self process other
  rcases getFromEnv_cases self process other with ⟨-, found⟩ | ⟨-, found⟩ <;>
    rw [found] at plain ⊢
  · exact aside_of_table rfl idle plain.idle
  · exact idle.aside different _ plain.idle

theorem aside_getRequest (self : Fin n) (idle : process.Idle tag) (different : tag ≠ other)
    (recpnt : Fin n) : Aside tag process (getRequest self process other recpnt) := by
  obtain ⟨-, plain⟩ := getRequest_kept self process other recpnt
  rcases getRequest_cases self process other recpnt with
    ⟨_, -, -, found⟩ | ⟨-, -, found⟩ | ⟨-, found⟩ <;> rw [found] at plain ⊢
  · exact aside_of_table rfl idle plain.idle
  · exact aside_of_table rfl idle plain.idle
  · exact idle.aside different _ plain.idle

omit [DecidableEq Tag] in
theorem plain_deliver {item : Item} {recpnts : List (Fin n)} {owner : Fin n} :
    Sent.Plain (deliver self other item recpnts owner) := by
  intro target message membership
  obtain ⟨-, -, rfl⟩ := mem_deliver.mp membership
  rfl

theorem aside_putOrDelete (tuner : Tuner n Tag) (self : Fin n) (idle : process.Idle tag)
    (different : tag ≠ other) (item : Item) (owner : Fin n) :
    Aside tag process ((putOrDelete tuner self process other item owner).1,
      (putOrDelete tuner self process other item owner).2.1) := by
  rcases putOrDelete_cases tuner self process other item owner with
    ⟨-, -, found⟩ | ⟨-, found⟩ | ⟨-, -, entry, -, -, -, -, -, found⟩ <;> rw [found]
  · exact aside_of_table rfl idle idle_nil
  · exact aside_of_table rfl idle idle_nil
  · apply idle.aside different
    split
    · exact plain_deliver.idle
    · exact idle_nil

omit [DecidableEq Tag] in
theorem idle_erase {tags : List Tag} {enterSafe : Bool} (unlisted : tag ∉ tags) :
    Sent.Idle tag (broadcast self (.erase tags enterSafe : Msg n Tag Item)) := by
  intro target message membership
  obtain ⟨-, rfl⟩ := mem_broadcast.mp membership
  exact unlisted

omit [DecidableEq Tag] in
theorem aside_sendErased (tuner : Tuner n Tag) (self : Fin n) (idle : process.Idle tag)
    (enterSafe : Bool) : Aside tag process (sendErased tuner self process enterSafe) := by
  rcases sendErased_cases tuner self process enterSafe with found | found <;> rw [found]
  · exact aside_of_table rfl idle idle_nil
  · exact aside_of_table rfl ⟨idle.getList, idle.sers, by simp⟩ (idle_erase idle.erasedSer)

theorem aside_decrementRefCount {send : Bool} {result : Process n Tag Item × Sent n Tag Item}
    (idle : process.Idle tag) (different : tag ≠ other)
    (decremented : decrementRefCount tuner self process other send = some result) :
    Aside tag process result := by
  have unlisted : tag ∉ process.erasedSer.getD [] ++ [other] := by
    simp [idle.erasedSer, different]
  have erased := idle.aside different none idle_nil
  obtain ⟨entry, -, -, -, -, -, ⟨-, rfl⟩ | ⟨-, rfl⟩⟩ := decrementRefCount_cases decremented
  · rcases addErased_cases tuner self (process.setEntry other none) other send with
      ⟨-, added⟩ | added | added <;> rw [added]
    · exact erased
    · exact ⟨erased.entry, ⟨idle.getList, idle.sers, unlisted⟩, idle_nil⟩
    · exact ⟨erased.entry, ⟨idle.getList, idle.sers, by simp⟩, idle_erase unlisted⟩
  · exact idle.aside different _ idle_nil

omit [DecidableEq Tag] in
theorem aside_sendGetcounts (self : Fin n) (idle : process.Idle tag) (enterSafe : Bool) :
    Aside tag process (sendGetcounts self process enterSafe) := by
  refine aside_of_table rfl ⟨idle.getList, by simp, idle.erasedSer⟩ ?_
  intro target message membership
  rw [mem_sendGetcounts membership]
  exact idle.sers target

theorem aside_getCountCollect (idle : process.Idle tag) (different : tag ≠ other)
    (owner : Fin n) : Aside tag process (getCountCollect process other owner, []) := by
  have collected := idle.aside different (some ((process.entry other).setGetCount 0)) idle_nil
  refine ⟨collected.entry, ⟨idle.getList, ?_, idle.erasedSer⟩, idle_nil⟩
  intro receiver
  by_cases same : receiver = owner
  · subst same
    simp [getCountCollect, idle.sers receiver, different]
  · simp [getCountCollect, same, idle.sers receiver]

theorem aside_collect {result : Process n Tag Item × Sent n Tag Item} (idle : process.Idle tag)
    (different : tag ≠ other) (collects : collect tuner self process other = some result) :
    Aside tag process result := by
  obtain ⟨owner, -, -, -, -, numgc, rfl | rfl⟩ := collect_cases collects
  · have collected := aside_getCountCollect idle different owner
    exact ⟨collected.entry, ⟨collected.idle.getList, collected.idle.sers, collected.idle.erasedSer⟩,
      idle_nil⟩
  · have collected := aside_getCountCollect idle different owner
    have flushed := aside_sendGetcounts self collected.idle false
    exact ⟨flushed.entry.trans collected.entry,
      ⟨flushed.idle.getList, flushed.idle.sers, flushed.idle.erasedSer⟩, flushed.sent⟩

end Operations

/-- A request of the process is on its way to the producer, waits there for the
item, or the answer is on its way. -/
def Asked (tag : Tag) (producer : Fin n) (s : State n Tag Item) (pid : Fin n) : Prop :=
  .request tag pid ∈ s.chan pid producer ∨
    (((s.proc producer).entry tag).item = none ∧
      pid ∈ ((s.proc producer).entry tag).subscribers) ∨
    ∃ item, .deliver producer tag item ∈ s.chan producer pid

structure Requested (tag : Tag) (producer : Fin n) (s : State n Tag Item) : Prop where
  idle : Everywhere (fun _ process => process.Idle tag)
    (fun _ _ (message : Msg n Tag Item) => tag ∉ message.tags) s.proc s.chan
  uncounted : ∀ pid, ((s.proc pid).entry tag).item ≠ none →
    ((s.proc pid).entry tag).getCount = noGetCount
  asked : ∀ pid, pid ≠ producer → 0 < ((s.proc pid).entry tag).suspendGroup →
    Asked tag producer s pid
  suspended : ∀ pid, (pid, tag) ∈ s.history.suspended →
    0 < ((s.proc pid).entry tag).suspendGroup ∨ ((s.proc pid).entry tag).item ≠ none
  owner : s.history.owner tag = none ∨ s.history.owner tag = some producer

def Msg.Concerns (tag : Tag) : Msg n Tag Item → Prop
  | .request other _ => other = tag
  | .deliver _ other _ => other = tag
  | _ => False

variable {s s₀ next : State n Tag Item} {producer : Fin n}

/-- A message which does not concern the tag is taken from a queue, or partly
handled. -/
structure Takes (tag : Tag) (s s₀ : State n Tag Item) : Prop where
  proc : s₀.proc = s.proc
  history : s₀.history = s.history
  idle : ∀ i j, ∀ message ∈ s₀.chan i j, message ∈ s.chan i j ∨ tag ∉ message.tags
  kept : ∀ i j message, message.Concerns tag → message ∈ s.chan i j → message ∈ s₀.chan i j

theorem Takes.refl : Takes tag s s :=
  ⟨rfl, rfl, fun _ _ _ old => .inl old, fun _ _ _ _ old => old⟩

theorem takes_setQueue {source target : Fin n} {message : Msg n Tag Item}
    {rest queue : List (Msg n Tag Item)} (head : s.chan source target = message :: rest)
    (unconcerned : ¬ message.Concerns tag) (remaining : ∀ other ∈ rest, other ∈ queue)
    (idle : ∀ other ∈ queue, other ∈ rest ∨ tag ∉ other.tags) :
    Takes tag s (s.setQueue source target queue) where
  proc := rfl
  history := rfl
  idle i j other membership := by
    rcases Channels.mem_setQueue membership with ⟨rfl, rfl, queued⟩ | old
    · rcases idle other queued with old | unlisted
      · exact .inl (head ▸ List.mem_cons_of_mem _ old)
      · exact .inr unlisted
    · exact .inl old
  kept i j other concerns old := by
    by_cases same : i = source ∧ j = target
    · obtain ⟨rfl, rfl⟩ := same
      rw [head] at old
      simp only [State.setQueue, Channels.setQueue_same]
      rcases List.mem_cons.mp old with rfl | later
      · exact absurd concerns unconcerned
      · exact remaining other later
    · simpa only [State.setQueue, Channels.setQueue_other _ _ same] using old

theorem takes_tail {source target : Fin n} {message : Msg n Tag Item}
    {rest : List (Msg n Tag Item)} (head : s.chan source target = message :: rest)
    (unconcerned : ¬ message.Concerns tag) : Takes tag s (s.setQueue source target rest) :=
  takes_setQueue head unconcerned (fun _ old => old) fun _ old => .inl old

/-- The process `pid` takes a new state and sends messages: what remains to be
shown of the invariant. -/
theorem Requested.change (requested : Requested tag producer s) (s₀ : State n Tag Item) {pid : Fin n}
    {process : Process n Tag Item} {sent : Sent n Tag Item} (sameProc : s₀.proc = s.proc)
    (remaining : ∀ i j, ∀ message ∈ s₀.chan i j, message ∈ s.chan i j ∨ tag ∉ message.tags)
    (proc : next.proc = Function.update s₀.proc pid process)
    (chan : next.chan = s₀.chan.send pid sent)
    (idle : process.Idle tag) (sentIdle : Sent.Idle tag sent)
    (uncounted : (process.entry tag).item ≠ none → (process.entry tag).getCount = noGetCount)
    (asked : pid ≠ producer → 0 < (process.entry tag).suspendGroup → Asked tag producer next pid)
    (askedOthers : ∀ q, q ≠ producer → q ≠ pid → Asked tag producer s q →
      Asked tag producer next q)
    (suspended : (pid, tag) ∈ next.history.suspended →
      0 < (process.entry tag).suspendGroup ∨ (process.entry tag).item ≠ none)
    (suspendedOthers : ∀ q, q ≠ pid → (q, tag) ∈ next.history.suspended →
      (q, tag) ∈ s.history.suspended)
    (owner : next.history.owner tag = none ∨ next.history.owner tag = some producer) :
    Requested tag producer next := by
  have here : next.proc pid = process := by rw [proc, Function.update_self]
  have elsewhere : ∀ q, q ≠ pid → next.proc q = s.proc q := by
    intro q different
    rw [proc, Function.update_of_ne different, sameProc]
  refine ⟨?_, ?_, ?_, ?_, owner⟩
  · rw [proc, chan]
    refine Everywhere.apply ⟨?_, ?_⟩ idle sentIdle
    · rw [sameProc]
      exact requested.idle.processes
    · intro i j message membership
      rcases remaining i j message membership with old | unlisted
      · exact requested.idle.messages i j message old
      · exact unlisted
  · intro q
    by_cases same : q = pid
    · rw [same, here]
      exact uncounted
    · rw [elsewhere q same]
      exact requested.uncounted q
  · intro q different
    by_cases same : q = pid
    · subst same
      rw [here]
      exact asked different
    · rw [elsewhere q same]
      exact fun waiting => askedOthers q different same (requested.asked q different waiting)
  · intro q
    by_cases same : q = pid
    · subst same
      rw [here]
      exact suspended
    · rw [elsewhere q same]
      exact fun old => requested.suspended q (suspendedOthers q same old)

theorem Asked.mono {pid : Fin n} (asked : Asked tag producer s pid)
    (kept : ∀ i j message, message.Concerns tag → message ∈ s.chan i j →
      message ∈ next.chan i j)
    (sameEntry : (next.proc producer).entry tag = (s.proc producer).entry tag) :
    Asked tag producer next pid := by
  rcases asked with request | subscribed | ⟨item, answer⟩
  · exact .inl (kept pid producer _ rfl request)
  · refine .inr (.inl ?_)
    rw [sameEntry]
    exact subscribed
  · exact .inr (.inr ⟨item, kept producer pid _ rfl answer⟩)

theorem Requested.aside (requested : Requested tag producer s) (takes : Takes tag s s₀)
    {pid : Fin n} {result : Process n Tag Item × Sent n Tag Item}
    (aside : Aside tag (s.proc pid) result)
    (proc : next.proc = Function.update s₀.proc pid result.1)
    (chan : next.chan = s₀.chan.send pid result.2)
    (suspended : ∀ q, (q, tag) ∈ next.history.suspended → (q, tag) ∈ s.history.suspended)
    (owner : next.history.owner tag = none ∨ next.history.owner tag = some producer) :
    Requested tag producer next := by
  have entry : ∀ q, (next.proc q).entry tag = (s.proc q).entry tag := by
    intro q
    rw [proc, takes.proc]
    by_cases same : q = pid
    · subst same
      rw [Function.update_self, aside.entry]
    · rw [Function.update_of_ne same]
  have kept : ∀ q, Asked tag producer s q → Asked tag producer next q := by
    intro q asked
    apply asked.mono _ (entry producer)
    intro i j message concerns old
    rw [chan]
    exact Channels.mem_send.mpr (.inl (takes.kept i j message concerns old))
  apply requested.change s₀ takes.proc takes.idle proc chan aside.idle aside.sent
  · rw [aside.entry]
    exact requested.uncounted pid
  · rw [aside.entry]
    exact fun different waiting => kept pid (requested.asked pid different waiting)
  · exact fun q _ _ => kept q
  · rw [aside.entry]
    exact fun old => requested.suspended pid (suspended pid old)
  · exact fun q _ => suspended q
  · exact owner

section Steps

variable [DecidableEq Tag] {pid : Fin n}

/-- A get misses the item.  Unless others have asked before, it asks the
producer. -/
theorem Requested.suspend (requested : Requested tag producer s)
    (absent : ((s.proc pid).entry tag).item = none) {sent : Sent n Tag Item}
    (plain : Sent.Plain sent)
    (asks : pid ≠ producer → ((s.proc pid).entry tag).suspendGroup = 0 →
      (producer, .request tag pid) ∈ sent) :
    Requested tag producer
      (s.getAt pid tag
        ((s.proc pid).setEntry tag (some ((s.proc pid).entry tag).suspend), sent)) := by
  have entry : (((s.proc pid).setEntry tag (some ((s.proc pid).entry tag).suspend)).entry tag) =
      ((s.proc pid).entry tag).suspend := by
    rw [entry_setEntry, if_pos rfl]
  have idle := requested.idle.processes pid
  have kept : ∀ q, Asked tag producer s q → Asked tag producer (s.getAt pid tag
      ((s.proc pid).setEntry tag (some ((s.proc pid).entry tag).suspend), sent)) q := by
    intro q asked
    have old : ∀ i j message, message ∈ s.chan i j → message ∈ (s.chan.send pid sent) i j :=
      fun i j message membership => Channels.mem_send.mpr (.inl membership)
    rcases asked with request | ⟨missing, subscribed⟩ | ⟨item, answer⟩
    · exact .inl (old _ _ _ request)
    · refine .inr (.inl ?_)
      by_cases same : producer = pid
      · subst same
        simp only [State.getAt, State.apply, Function.update_self, entry]
        exact ⟨missing, subscribed⟩
      · simpa [State.getAt, State.apply, same] using ⟨missing, subscribed⟩
    · exact .inr (.inr ⟨item, old _ _ _ answer⟩)
  refine requested.change s rfl (fun _ _ _ old => .inl old) rfl rfl
    ⟨idle.getList, idle.sers, idle.erasedSer⟩ plain.idle ?_ ?_ (fun q _ _ => kept q) ?_ ?_ ?_
  · rw [entry]
    exact fun present => absurd absent present
  · intro different _
    by_cases first : ((s.proc pid).entry tag).suspendGroup = 0
    · exact .inl (Channels.mem_send.mpr (.inr ⟨rfl, asks different first⟩))
    · exact kept pid (requested.asked pid different (Nat.pos_of_ne_zero first))
  · rw [entry]
    exact fun _ => .inl (Nat.succ_pos _)
  · intro q different
    simp [State.getAt, absent, History.suspend, different]
  · have sameOwner : (s.getAt pid tag ((s.proc pid).setEntry tag
        (some ((s.proc pid).entry tag).suspend), sent)).history.owner = s.history.owner := by
      simp [State.getAt, absent, History.suspend]
    rw [sameOwner]
    exact requested.owner

theorem getRequest_entry (process : Process n Tag Item) (recpnt : Fin n) :
    (getRequest self process tag recpnt).1.entry tag = process.entry tag ∨
      (process.entry tag).item = none ∧ (getRequest self process tag recpnt).1.entry tag =
        (process.entry tag).subscribe recpnt := by
  rcases getRequest_cases self process tag recpnt with
    ⟨_, -, -, found⟩ | ⟨-, -, found⟩ | ⟨absent, found⟩ <;> rw [found]
  · exact .inl rfl
  · exact .inl rfl
  · exact .inr ⟨absent, by rw [entry_setEntry, if_pos rfl]⟩

omit [DecidableEq Tag] in
theorem Requested.owner_eq (requested : Requested tag producer s) (sound : Sound tag s)
    (present : ((s.proc producer).entry tag).item ≠ none) :
    ((s.proc producer).entry tag).owner = some producer := by
  have atProducer := sound.ofProcess producer
  have owned := atProducer.owned
  cases found : ((s.proc producer).entry tag).owner with
  | none => simp [found, present] at owned
  | some o =>
      have assigned := atProducer.ownerAgrees o found
      rcases requested.owner with unassigned | isProducer
      · simp [unassigned] at assigned
      · rw [← assigned, isProducer]

theorem Requested.asked_request (requested : Requested tag producer s) (sound : Sound tag s)
    {target recpnt q : Fin n} {rest : List (Msg n Tag Item)}
    (head : s.chan recpnt target = .request tag recpnt :: rest) (asked : Asked tag producer s q) :
    Asked tag producer ((s.setQueue recpnt target rest).apply target
      (getRequest target (s.proc target) tag recpnt)) q := by
  have old : ∀ i j message, message ∈ s.chan i j → message ≠ .request tag recpnt →
      message ∈ ((s.chan.setQueue recpnt target rest).send target
        (getRequest target (s.proc target) tag recpnt).2) i j :=
    fun i j message membership different => Channels.mem_send.mpr
      (.inl (Channels.mem_setQueue_tail head membership different))
  by_cases atProducer : target = producer
  · subst atProducer
    rcases asked with request | ⟨missing, subscribed⟩ | ⟨item, answer⟩
    · by_cases same : q = recpnt
      · subst same
        rcases getRequest_cases target (s.proc target) tag q with
          ⟨item, -, -, found⟩ | ⟨present, notOwner, -⟩ | ⟨missing, found⟩
        · refine .inr (.inr ⟨item, Channels.mem_send.mpr (.inr ⟨rfl, ?_⟩)⟩)
          rw [found]
          exact List.mem_singleton_self _
        · exact absurd (requested.owner_eq sound present) notOwner
        · refine .inr (.inl ?_)
          simp [State.apply, found, entry_setEntry, Entry.subscribe, missing]
      · exact .inl (old q target _ request (by simp [same]))
    · refine .inr (.inl ?_)
      simp only [State.apply, Function.update_self]
      rcases getRequest_entry (s.proc target) recpnt with same | ⟨-, noted⟩
      · rw [same]
        exact ⟨missing, subscribed⟩
      · rw [noted]
        exact ⟨missing, List.mem_append_left _ subscribed⟩
    · exact .inr (.inr ⟨item, old target q _ answer (by simp)⟩)
  · rcases asked with request | subscribed | ⟨item, answer⟩
    · refine .inl (Channels.mem_send.mpr (.inl ?_))
      simpa [State.setQueue, Channels.setQueue, Ne.symm atProducer] using request
    · refine .inr (.inl ?_)
      simpa [State.apply, State.setQueue, Ne.symm atProducer] using subscribed
    · exact .inr (.inr ⟨item, old producer q _ answer (by simp)⟩)

theorem Requested.request (requested : Requested tag producer s) (sound : Sound tag s)
    {source target recpnt : Fin n} {rest : List (Msg n Tag Item)}
    (head : s.chan source target = .request tag recpnt :: rest) :
    Requested tag producer ((s.setQueue source target rest).apply target
      (getRequest target (s.proc target) tag recpnt)) := by
  obtain ⟨rfl, -⟩ := sound.ofMessage (head ▸ List.mem_cons_self :
    Msg.request tag recpnt ∈ s.chan source target) rfl
  have idle := requested.idle.processes target
  obtain ⟨-, plain⟩ := getRequest_kept target (s.proc target) tag recpnt
  have sameEntry : ((getRequest target (s.proc target) tag recpnt).1.entry tag).item =
        ((s.proc target).entry tag).item ∧
      ((getRequest target (s.proc target) tag recpnt).1.entry tag).suspendGroup =
        ((s.proc target).entry tag).suspendGroup ∧
      ((getRequest target (s.proc target) tag recpnt).1.entry tag).getCount =
        ((s.proc target).entry tag).getCount := by
    rcases getRequest_entry (s.proc target) recpnt with same | ⟨-, noted⟩
    · rw [same]
      exact ⟨rfl, rfl, rfl⟩
    · rw [noted]
      exact ⟨rfl, rfl, rfl⟩
  obtain ⟨sameItem, sameGroup, sameCount⟩ := sameEntry
  refine requested.change (s.setQueue recpnt target rest) rfl ?_ rfl rfl ?_ plain.idle ?_ ?_ ?_ ?_
    (fun q _ old => old) requested.owner
  · exact fun i j message membership => .inl (Channels.mem_of_mem_setQueue_tail head membership)
  · rcases getRequest_cases target (s.proc target) tag recpnt with
      ⟨_, -, -, found⟩ | ⟨-, -, found⟩ | ⟨-, found⟩ <;> rw [found]
    · exact idle
    · exact idle
    · exact ⟨idle.getList, idle.sers, idle.erasedSer⟩
  · rw [sameItem, sameCount]
    exact requested.uncounted target
  · rw [sameGroup]
    exact fun different waiting =>
      requested.asked_request sound head (requested.asked target different waiting)
  · exact fun q _ _ => requested.asked_request sound head
  · rw [sameItem, sameGroup]
    exact requested.suspended target

theorem Requested.insert {tuner : Tuner n Tag} (requested : Requested tag producer s)
    (sound : Sound tag s) (uncounted : tuner.getCount tag = noGetCount) {item : Item}
    {process : Process n Tag Item} (sameTable : process.table = (s.proc pid).table)
    (idle : process.Idle tag) (sameProc : s₀.proc = s.proc) (sameHistory : s₀.history = s.history)
    (remaining : ∀ i j, ∀ message ∈ s₀.chan i j, message ∈ s.chan i j)
    (requests : ∀ i j q, .request tag q ∈ s.chan i j → .request tag q ∈ s₀.chan i j)
    (answers : ∀ i j, j ≠ pid → ∀ message ∈ s.chan i j, message ∈ s₀.chan i j) :
    Requested tag producer (s₀.insertAt tuner pid process tag item producer) := by
  have sameEntry : process.entry tag = (s.proc pid).entry tag := by
    simp only [Process.entry, sameTable]
  have sameSuspended : s₀.history.suspended = s.history.suspended := by rw [sameHistory]
  have owner : s₀.history.owner tag = none ∨ s₀.history.owner tag = some producer :=
    sameHistory ▸ requested.owner
  rcases putOrDelete_cases tuner pid process tag item producer with
    ⟨zero, -, -⟩ | ⟨present, found⟩ |
      ⟨absent, -, entry, hasItem, -, noGroup, -, count, found⟩
  · have countIsNotZero : noGetCount ≠ 0 := by decide
    exact absurd (uncounted.symm.trans zero) countIsNotZero
  · have noGroup : (process.entry tag).suspendGroup = 0 := by
      rw [sameEntry] at present ⊢
      exact ((sound.ofProcess pid).resumed present).1
    simp only [State.insertAt, found]
    refine requested.change s₀ sameProc (fun i j message membership =>
      .inl (remaining i j message membership)) rfl rfl idle idle_nil ?_ ?_ ?_ (fun _ => .inr present)
      (fun q _ => sameSuspended ▸ id) owner
    · rw [sameEntry]
      exact requested.uncounted pid
    · rw [noGroup]
      exact fun _ impossible => absurd impossible (Nat.lt_irrefl 0)
    · intro q different notHere asked
      rcases asked with request | subscribed | ⟨answer, delivered⟩
      · exact .inl (Channels.mem_send.mpr (.inl (requests q producer q request)))
      · refine .inr (.inl ?_)
        by_cases atProducer : producer = pid
        · subst atProducer
          simpa [State.apply, sameEntry] using subscribed
        · simpa [State.apply, sameProc, atProducer] using subscribed
      · exact .inr (.inr ⟨answer,
          Channels.mem_send.mpr (.inl (answers producer q notHere _ delivered))⟩)
  · have newEntry : (process.setEntry tag (some entry)).entry tag = entry := by
      rw [entry_setEntry, if_pos rfl]
    rw [if_pos uncounted] at count
    simp only [State.insertAt, found]
    refine requested.change s₀ sameProc (fun i j message membership =>
      .inl (remaining i j message membership)) rfl rfl ⟨idle.getList, idle.sers, idle.erasedSer⟩
      ?_ ?_ ?_ ?_ ?_ (fun q _ => sameSuspended ▸ id) owner
    · split
      · exact plain_deliver.idle
      · exact idle_nil
    · rw [newEntry]
      exact fun _ => count
    · rw [newEntry, noGroup]
      exact fun _ impossible => absurd impossible (Nat.lt_irrefl 0)
    · intro q different notHere asked
      rcases asked with request | ⟨missing, subscribed⟩ | ⟨answer, delivered⟩
      · exact .inl (Channels.mem_send.mpr (.inl (requests q producer q request)))
      · by_cases atProducer : producer = pid
        · subst atProducer
          refine .inr (.inr ⟨item, Channels.mem_send.mpr (.inr ⟨rfl, ?_⟩)⟩)
          rw [if_pos rfl, sameEntry]
          exact mem_deliver.mpr ⟨subscribed, different, rfl⟩
        · refine .inr (.inl ?_)
          simpa [State.apply, sameProc, atProducer] using ⟨missing, subscribed⟩
      · exact .inr (.inr ⟨answer,
          Channels.mem_send.mpr (.inl (answers producer q notHere _ delivered))⟩)
    · rw [newEntry, hasItem]
      exact fun _ => .inr (by simp)

omit [DecidableEq Tag] in
theorem owner_of_unspecified {tag : Tag} {item : Item} {consumers : Consumers n} {owner : Fin n}
    {here : Bool} {sent : Sent n Tag Item} (unspecified : consumersUnspecified consumers)
    (delivered : deliverPut self tag item consumers = some (owner, here, sent)) :
    owner = self := by
  unfold deliverPut at delivered
  split at delivered
  · cases delivered
    rfl
  unfold deliverToConsumers at delivered
  split at delivered
  · simp only [consumersUnspecified, beq_iff_eq] at unspecified
    cases unspecified
    cases delivered
    rfl
  · cases delivered
    rfl
  · simp only [consumersUnspecified, beq_iff_eq] at unspecified
    cases unspecified
    cases delivered
    rfl
  · rename_i consumers notEmpty _
    cases consumers with
    | nil => exact absurd rfl notEmpty
    | cons consumer rest =>
        simp only [consumersUnspecified, beq_iff_eq] at unspecified
        cases unspecified
        simp [Consumer.pid?] at delivered

/-- The process which an answer of `produced_on` names, if there is one. -/
def Producer.pid? (self : Fin n) : Producer n → Option (Fin n)
  | .pid process => some process
  | .here => some self
  | .unknown => none

def PutOnceBy (producer : Fin n) (tag : Tag) (s : State n Tag Item) : Action n Tag Item → Prop
  | .put pid other _ => other = tag → pid = producer ∧ s.history.owner tag = none
  | _ => True

instance (producer : Fin n) (tag : Tag) (s : State n Tag Item) (action : Action n Tag Item) :
    Decidable (PutOnceBy producer tag s action) :=
  match action with
  | .put pid other _ =>
      inferInstanceAs (Decidable (other = tag → pid = producer ∧ s.history.owner tag = none))
  | .get .. | .getFromEnv .. | .insert .. | .commit .. | .clear .. | .collect ..
  | .sendGetcounts .. | .sendErased .. | .receive .. => .isTrue trivial

omit [DecidableEq Tag] in
theorem PutOnceBy.once {action : Action n Tag Item} (once : PutOnceBy producer tag s action) :
    PutOnce tag s action := by
  cases action with
  | put pid other item => exact fun same => (once same).2
  | _ => trivial

omit [DecidableEq Tag] in
theorem request_mem_putRequest {answer : Producer n}
    (right : ∀ named, answer.pid? pid = some named → named = producer)
    (different : pid ≠ producer) :
    (producer, .request tag pid) ∈ (putRequest pid tag answer : Sent n Tag Item) := by
  cases answer with
  | pid named =>
      cases right named rfl
      simp [putRequest, different.symm]
  | here => exact absurd (right pid rfl) different
  | unknown => exact mem_broadcast.mpr ⟨different.symm, rfl⟩

theorem Requested.received {tuner : Tuner n Tag} (requested : Requested tag producer s)
    (sound : Sound tag s) (uncounted : tuner.getCount tag = noGetCount) {source target o : Fin n}
    {message : Msg n Tag Item} {item : Item} {rest : List (Msg n Tag Item)}
    (head : s.chan source target = message :: rest) (isOwner : s.history.owner tag = some o)
    (notRequest : ∀ q, message ≠ .request tag q) :
    Requested tag producer
      ((s.setQueue source target rest).insertAt tuner target (s.proc target) tag item o) := by
  obtain rfl : o = producer := by
    rcases requested.owner with unassigned | isProducer
    · simp [unassigned] at isOwner
    · simpa [isProducer] using isOwner.symm
  refine requested.insert sound uncounted rfl (requested.idle.processes target) rfl rfl ?_ ?_ ?_
  · exact fun i j other membership => Channels.mem_of_mem_setQueue_tail head membership
  · intro i j q membership
    exact Channels.mem_setQueue_tail head membership (notRequest q).symm
  · intro i j different other membership
    simpa [State.setQueue, Channels.setQueue, different] using membership

theorem Requested.recvMsg {tuner : Tuner n Tag} (requested : Requested tag producer s)
    (sound : Sound tag s) (uncounted : tuner.getCount tag = noGetCount) {source target : Fin n}
    {message : Msg n Tag Item} {rest : List (Msg n Tag Item)}
    (head : s.chan source target = message :: rest)
    (received : s.recvMsg tuner source target rest message = some next) :
    Requested tag producer next := by
  have idle := requested.idle.processes target
  have membership : message ∈ s.chan source target := head ▸ List.mem_cons_self
  have unlisted : tag ∉ message.tags := requested.idle.messages source target message membership
  have known := sound.ofMessage membership
  cases message with
  | request other recpnt =>
      cases received
      by_cases same : tag = other
      · subst same
        exact requested.request sound head
      · exact requested.aside (takes_tail head (Ne.symm same))
          (aside_getRequest target idle same recpnt) rfl rfl (fun _ => id) requested.owner
  | deliver owner other item =>
      cases received
      by_cases same : tag = other
      · subst same
        exact requested.received sound uncounted head (known rfl).1 (by simp)
      · exact requested.aside (takes_tail head (Ne.symm same))
          (aside_putOrDelete tuner target idle same item owner) rfl rfl (fun _ => id)
          requested.owner
  | deliverToOwn other item =>
      cases received
      by_cases same : tag = other
      · subst same
        exact requested.received sound uncounted head (known rfl).1 (by simp)
      · exact requested.aside (takes_tail head id)
          (aside_putOrDelete tuner target idle same item target) rfl rfl (fun _ => id)
          requested.owner
  | getCounts pid tags enterSafe =>
      cases tags with
      | nil =>
          cases received
          refine requested.aside (takes_tail head id) ?_ rfl rfl (fun _ => id) requested.owner
          cases enterSafe with
          | true =>
              exact aside_of_table rfl ⟨idle.getList, idle.sers, idle.erasedSer⟩ idle_nil
          | false => exact aside_sendErased tuner target idle false
      | cons other tags =>
          obtain ⟨different, notLater⟩ := not_or.mp (mt List.mem_cons.mpr unlisted)
          have takes : Takes tag s (s.setQueue source target
              (.getCounts pid tags enterSafe :: rest)) := by
            apply takes_setQueue head id (fun _ old => List.mem_cons_of_mem _ old)
            intro message queued
            rcases List.mem_cons.mp queued with rfl | old
            · exact .inr notLater
            · exact .inl old
          simp only [State.recvMsg, State.decrementAt] at received
          split at received
          · cases received
          · rename_i decremented
            cases received
            exact requested.aside takes (aside_decrementRefCount idle different decremented) rfl rfl
              (fun _ => id) requested.owner
  | erase tags enterSafe =>
      cases tags with
      | nil =>
          cases received
          refine requested.aside (takes_tail head id) ?_ rfl rfl (fun _ => id) requested.owner
          split
          · exact aside_of_table rfl ⟨idle.getList, idle.sers, idle.erasedSer⟩ idle_nil
          · exact aside_of_table rfl idle idle_nil
      | cons other tags =>
          cases received
          obtain ⟨different, notLater⟩ := not_or.mp (mt List.mem_cons.mpr unlisted)
          have takes : Takes tag s (s.setQueue source target
              (.erase tags enterSafe :: rest)) := by
            apply takes_setQueue head id (fun _ old => List.mem_cons_of_mem _ old)
            intro message queued
            rcases List.mem_cons.mp queued with rfl | old
            · exact .inr notLater
            · exact .inl old
          exact requested.aside takes (idle.aside different none idle_nil) rfl rfl (fun _ => id)
            requested.owner

variable [DecidableEq Item]

theorem Requested.step {tuner : Tuner n Tag} {action : Action n Tag Item}
    (requested : Requested tag producer s) (sound : Sound tag s)
    (uncounted : tuner.getCount tag = noGetCount)
    (unspecified : consumersUnspecified (tuner.consumedOn tag))
    (right : ∀ pid named, (tuner.producedOn pid tag).pid? pid = some named → named = producer)
    (once : PutOnceBy producer tag s action)
    (stepped : step tuner s action = some next) : Requested tag producer next := by
  cases action with
  | get pid other =>
      cases stepped
      have idle := requested.idle.processes pid
      by_cases same : tag = other
      · subst same
        rcases get_cases tuner pid (s.proc pid) tag with
          ⟨item, present, found | ⟨counted, -⟩⟩ | ⟨absent, found⟩
        · rw [found]
          refine requested.aside .refl (aside_of_table rfl idle idle_nil) rfl rfl ?_ ?_
          · simp [State.getAt, present]
          · simpa [State.getAt, present] using requested.owner
        · exact absurd (requested.uncounted pid (by simp [present])) counted
        · obtain ⟨-, plain⟩ := get_kept tuner pid (s.proc pid) tag
          rw [found] at plain ⊢
          apply requested.suspend absent plain
          intro different first
          rw [if_pos ⟨first, unspecified⟩]
          exact request_mem_putRequest (right pid) different
      · refine requested.aside .refl (aside_get tuner pid idle same) rfl rfl ?_ ?_
        · intro q
          simp only [State.getAt]
          split
          · simp [History.suspend, same]
          · exact id
        · simp only [State.getAt]
          split <;> exact requested.owner
  | getFromEnv pid other =>
      cases stepped
      have idle := requested.idle.processes pid
      by_cases same : tag = other
      · subst same
        rcases getFromEnv_cases pid (s.proc pid) tag with ⟨present, found⟩ | ⟨absent, found⟩
        · rw [found]
          refine requested.aside .refl (aside_of_table rfl idle idle_nil) rfl rfl ?_ ?_
          · simp [State.getAt, present]
          · simpa [State.getAt, present] using requested.owner
        · obtain ⟨-, plain⟩ := getFromEnv_kept pid (s.proc pid) tag
          rw [found] at plain ⊢
          apply requested.suspend absent plain
          intro different _
          exact mem_broadcast.mpr ⟨different.symm, rfl⟩
      · refine requested.aside .refl (aside_getFromEnv pid idle same) rfl rfl ?_ ?_
        · intro q
          simp only [State.getAt]
          split
          · simp [History.suspend, same]
          · exact id
        · simp only [State.getAt]
          split <;> exact requested.owner
  | put pid other item =>
      simp only [CnC.Item.step] at stepped
      split at stepped
      · cases stepped
      · rename_i o here sent delivered
        cases stepped
        have idle := requested.idle.processes pid
        have plain : Sent.Plain sent := by
          intro target message membership
          obtain ⟨-, rfl | ⟨rfl, -⟩⟩ := mem_deliverPut delivered membership <;> rfl
        have aside : Aside tag (s.proc pid) ({ s.proc pid with
            putting := if here then (other, item, o) :: (s.proc pid).putting
              else (s.proc pid).putting }, sent) :=
          aside_of_table rfl ⟨idle.getList, idle.sers, idle.erasedSer⟩ plain.idle
        refine requested.aside .refl aside rfl rfl (fun _ => id) ?_
        by_cases same : tag = other
        · subst same
          obtain ⟨rfl, -⟩ := once rfl
          obtain rfl := owner_of_unspecified unspecified delivered
          exact .inr (by simp [History.assign])
        · simpa [History.assign, same] using requested.owner
  | insert pid other item o =>
      simp only [CnC.Item.step, Option.ite_none_right_eq_some, Option.some.injEq] at stepped
      obtain ⟨pending, rfl⟩ := stepped
      have idle := requested.idle.processes pid
      by_cases same : tag = other
      · subst same
        have isOwner := ((sound.ofProcess pid).putting item o pending).1
        obtain rfl : o = producer := by
          rcases requested.owner with unassigned | isProducer
          · simp [unassigned] at isOwner
          · simpa [isProducer] using isOwner.symm
        exact requested.insert sound uncounted rfl ⟨idle.getList, idle.sers, idle.erasedSer⟩ rfl rfl
          (fun _ _ _ => id) (fun _ _ _ => id) (fun _ _ _ _ => id)
      · have changed : ({ s.proc pid with putting := (s.proc pid).putting.erase (other, item, o) } :
            Process n Tag Item).Idle tag := ⟨idle.getList, idle.sers, idle.erasedSer⟩
        have aside := aside_putOrDelete tuner pid changed same item o
        exact requested.aside .refl ⟨aside.entry, aside.idle, aside.sent⟩ rfl rfl (fun _ => id)
          requested.owner
  | commit pid other =>
      simp only [CnC.Item.step, Option.ite_none_right_eq_some, State.decrementAt] at stepped
      obtain ⟨listed, decremented⟩ := stepped
      have idle := requested.idle.processes pid
      have different : tag ≠ other := by
        rintro rfl
        exact idle.getList listed
      split at decremented
      · cases decremented
      · rename_i result found
        cases decremented
        have changed : ({ s.proc pid with getList := (s.proc pid).getList.erase other } :
            Process n Tag Item).Idle tag :=
          ⟨fun later => idle.getList (List.mem_of_mem_erase later), idle.sers, idle.erasedSer⟩
        have aside := aside_decrementRefCount changed different found
        exact requested.aside .refl ⟨aside.entry, aside.idle, aside.sent⟩ rfl rfl (fun _ => id)
          requested.owner
  | clear pid other =>
      cases stepped
      have idle := requested.idle.processes pid
      have aside : Aside tag (s.proc pid)
          ({ s.proc pid with getList := (s.proc pid).getList.erase other }, []) :=
        aside_of_table rfl ⟨fun later => idle.getList (List.mem_of_mem_erase later), idle.sers,
          idle.erasedSer⟩ idle_nil
      exact requested.aside .refl aside rfl rfl (fun _ => id) requested.owner
  | collect pid other =>
      simp only [CnC.Item.step] at stepped
      split at stepped
      · cases stepped
      · rename_i collects
        cases stepped
        have different : tag ≠ other := by
          rintro rfl
          obtain ⟨owner, owned, -, -, counted, -⟩ := collect_cases collects
          have known := (sound.ofProcess pid).owned
          apply counted
          apply requested.uncounted pid
          intro absent
          simp [owned, absent] at known
        exact requested.aside .refl
          (aside_collect (requested.idle.processes pid) different collects) rfl rfl (fun _ => id)
          requested.owner
  | sendGetcounts pid enterSafe =>
      cases stepped
      exact requested.aside .refl (aside_sendGetcounts pid (requested.idle.processes pid) enterSafe)
        rfl rfl (fun _ => id) requested.owner
  | sendErased pid enterSafe =>
      cases stepped
      exact requested.aside .refl
        (aside_sendErased tuner pid (requested.idle.processes pid) enterSafe) rfl rfl (fun _ => id)
        requested.owner
  | receive source target =>
      simp only [CnC.Item.step] at stepped
      split at stepped
      · cases stepped
      · rename_i head
        exact requested.recvMsg sound uncounted head stepped

omit [DecidableEq Item] [DecidableEq Tag] in
theorem requested_start : Requested tag producer (start n Tag Item) where
  idle := by
    refine ⟨fun pid => ⟨?_, ?_, ?_⟩, ?_⟩ <;> simp [start]
  uncounted pid present := absurd rfl present
  asked pid _ waiting := absurd waiting (Nat.lt_irrefl 0)
  suspended pid old := by cases old
  owner := .inl rfl

/-- In every run in which the producer puts a tag without get-count and with
unspecified consumers once, and the tuner names no other producer: when no
message is in flight and the owner holds the item, no get is suspended on it,
the owner has no subscribers, and every process on which a get was ever
suspended has the item of the owner. -/
theorem requests_answered {tuner : Tuner n Tag} {item : Item} {o : Fin n}
    (uncounted : tuner.getCount tag = noGetCount)
    (unspecified : consumersUnspecified (tuner.consumedOn tag))
    (right : ∀ pid named, (tuner.producedOn pid tag).pid? pid = some named → named = producer)
    (reached : Reached (system tuner) (PutOnceBy producer tag) s)
    (noMessages : s.chan.Empty) (isOwner : s.history.owner tag = some o)
    (present : ((s.proc o).entry tag).item = some item) :
    (∀ pid, ((s.proc pid).entry tag).suspendGroup = 0) ∧
      ((s.proc o).entry tag).subscribers = [] ∧
      ∀ pid, (pid, tag) ∈ s.history.suspended →
        ((s.proc pid).entry tag).item = some item := by
  have soundAt : ∀ {s : State n Tag Item}, Reached (system tuner) (PutOnceBy producer tag) s →
      Sound tag s :=
    fun reached => sound_of_reached (reached.weaken fun _ _ once => once.once)
  have requested : Requested tag producer s := by
    refine Reached.invariant (Requested tag producer) ?_ ?_ reached
    · rintro _ rfl
      exact requested_start
    · intro before action next reachedBefore requested once stepped
      exact requested.step (soundAt reachedBefore) uncounted unspecified right once stepped
  have sound := soundAt reached
  obtain rfl : o = producer := by
    rcases requested.owner with unassigned | isProducer
    · simp [unassigned] at isOwner
    · simpa [isProducer] using isOwner.symm
  obtain ⟨noGroup, noSubscribers⟩ := (sound.ofProcess o).resumed (by simp [present])
  have resumed : ∀ pid, ((s.proc pid).entry tag).suspendGroup = 0 := by
    intro pid
    by_cases same : pid = o
    · exact same ▸ noGroup
    by_contra waiting
    rcases requested.asked pid same (Nat.pos_of_ne_zero waiting) with
      request | ⟨missing, -⟩ | ⟨_, answer⟩
    · simp [noMessages pid o] at request
    · simp [present] at missing
    · simp [noMessages o pid] at answer
  refine ⟨resumed, noSubscribers, fun pid suspended => ?_⟩
  rcases requested.suspended pid suspended with waiting | holds
  · simp [resumed pid] at waiting
  · obtain ⟨copy, found⟩ := Option.ne_none_iff_exists'.mp holds
    have ownValue := (sound.ofProcess o).valueAgrees item present
    have copyValue := (sound.ofProcess pid).valueAgrees copy found
    rw [found, ← copyValue, ownValue]

def stays : Tuner 3 Nat where
  consumedOn _ := .single .unknown
  producedOn _ _ := .unknown
  getCount _ := noGetCount
  getCount_le _ := noGetCount_le
  enableGC := 1
  enableGC_pos := Nat.one_pos

/-- A get on process 1 misses item 7.  One request reaches process 0 before it
puts the item, the other one process 2, where it stays. -/
def requestFirst : List (Action 3 Nat Nat) :=
  [.get 1 7, .receive 1 0, .receive 1 2, .put 0 7 42, .insert 0 7 42 0, .receive 0 1]

theorem requests_answered_requestFirst :
    ∃ s : State 3 Nat Nat,
      (system stays).run (PutOnceBy 0 7) (start 3 Nat Nat) requestFirst = some s ∧
        (1, 7) ∈ s.history.suspended ∧ s.chan.Empty ∧
        (∀ pid, ((s.proc pid).entry 7).suspendGroup = 0) ∧
        ((s.proc 1).entry 7).item = some 42 := by
  have reached : Reached (system stays : System (State 3 Nat Nat) (Action 3 Nat Nat))
      (PutOnceBy 0 7) _ :=
    Reached.run (.initial rfl) requestFirst rfl
  have answered := requests_answered (o := 0) rfl (by decide) (fun _ _ named => by cases named) reached
    (by decide) rfl rfl
  exact ⟨_, rfl, by decide, by decide, answered.1, answered.2.2 1 (by decide)⟩

end Steps

end CnC.Item
