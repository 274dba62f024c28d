import CnC.Item.Garbage

/-!
# Copies after garbage collection

When the count of an item is used up, its owner erases the item and tells all
other processes to erase their copies.  The item itself may reach a process over
another channel than the order to erase it, and a process which receives the
item after the order keeps it.  `no_copy_after_erase` proves that no copy is
left if no process inserts the item after it has erased it.
-/

namespace CnC.Item

open Network Transition

universe u

variable {n : Nat} {Tag Item : Type u}

/-- The answer of `consumed_on` names several processes. -/
def consumersSeveral : Consumers n → Bool
  | .single consumer => consumer == .all || consumer == .allOthers
  | .vector [consumer] => consumer == .all || consumer == .allOthers
  | .vector consumers => decide (1 < consumers.length)

theorem amOnlyConsumer_of_several {pid : Fin n} {consumers : Consumers n}
    (several : consumersSeveral consumers) : amOnlyConsumer pid consumers = false := by
  match consumers with
  | .single consumer => cases consumer <;> simp_all [consumersSeveral, amOnlyConsumer]
  | .vector [] => rfl
  | .vector [consumer] => cases consumer <;> simp_all [consumersSeveral, amOnlyConsumer]
  | .vector (_ :: _ :: _) => rfl

/-- The process erases the tag, has erased it, or is being told to: the tag is
in the erase list of the process which used up the count, or in a message from
there. -/
def Told (tag : Tag) (s : State n Tag Item) (source target : Fin n) : Prop :=
  (target, tag) ∈ s.history.erased ∨ tag ∈ (s.proc source).erasedSer.getD [] ∨
    ∃ tags enterSafe, .erase tags enterSafe ∈ s.chan source target ∧ tag ∈ tags

structure Erasing (tag : Tag) (s : State n Tag Item) : Prop where
  gone : ∀ pid, (pid, tag) ∈ s.history.erased → ((s.proc pid).entry tag).item = none
  told : ∀ source, (source, tag) ∈ s.history.collected →
    (source, tag) ∈ s.history.erased ∧ ∀ target, target ≠ source → Told tag s source target

variable {tag : Tag} {s next : State n Tag Item}

theorem Told.mono {source target : Fin n} (told : Told tag s source target)
    (erased : ∀ pair, pair ∈ s.history.erased → pair ∈ next.history.erased)
    (listed : tag ∈ (s.proc source).erasedSer.getD [] →
      tag ∈ (next.proc source).erasedSer.getD [])
    (sent : ∀ tags enterSafe, .erase tags enterSafe ∈ s.chan source target → tag ∈ tags →
      Told tag next source target) : Told tag next source target := by
  rcases told with old | old | ⟨tags, enterSafe, membership, tagged⟩
  · exact .inl (erased _ old)
  · exact .inr (.inl (listed old))
  · exact sent tags enterSafe membership tagged

/-- A message which names a tag stays in its queue when a message without tags
is taken. -/
theorem Pops.erase_mem {s₀ : State n Tag Item} (pops : Pops s s₀) {source target : Fin n}
    {tags : List Tag} {enterSafe : Bool}
    (membership : .erase tags enterSafe ∈ s.chan source target) (tagged : tag ∈ tags) :
    .erase tags enterSafe ∈ s₀.chan source target := by
  cases pops with
  | none => exact membership
  | head head noTags =>
      apply Channels.mem_setQueue_tail head membership
      rintro rfl
      have none : tags = [] := noTags
      simp [none] at tagged

/-- An operation of one process which erases nothing and keeps the erase
list. -/
theorem Erasing.apply (erasing : Erasing tag s) {pid : Fin n} (process : Process n Tag Item)
    (proc : next.proc = Function.update s.proc pid process)
    (sameErased : next.history.erased = s.history.erased)
    (sameCollected : next.history.collected = s.history.collected)
    (item : (pid, tag) ∈ s.history.erased →
      (process.entry tag).item = ((s.proc pid).entry tag).item)
    (list : process.erasedSer = (s.proc pid).erasedSer)
    (messages : ∀ source target tags enterSafe, tag ∈ tags →
      .erase tags enterSafe ∈ s.chan source target →
      .erase tags enterSafe ∈ next.chan source target) : Erasing tag next := by
  constructor
  · intro other erased
    rw [sameErased] at erased
    rw [proc]
    by_cases same : other = pid
    · subst same
      rw [Function.update_self, item erased]
      exact erasing.gone other erased
    · rw [Function.update_of_ne same]
      exact erasing.gone other erased
  · intro source collected
    rw [sameCollected] at collected
    obtain ⟨erased, told⟩ := erasing.told source collected
    refine ⟨sameErased ▸ erased, fun target different => ?_⟩
    have lists : (next.proc source).erasedSer = (s.proc source).erasedSer := by
      rw [proc]
      by_cases same : source = pid
      · subst same
        rw [Function.update_self, list]
      · rw [Function.update_of_ne same]
    apply (told target different).mono
    · rw [sameErased]
      exact fun _ old => old
    · rw [lists]
      exact id
    · intro tags enterSafe membership tagged
      exact .inr (.inr ⟨tags, enterSafe, messages source target tags enterSafe tagged membership,
        tagged⟩)

section Effects

variable [DecidableEq Tag]

theorem Origin.erase_mem {s₀ : State n Tag Item} {pid : Fin n} {other : Tag}
    (origin : Origin s pid other s₀) {source target : Fin n} {tags : List Tag}
    {enterSafe : Bool} (membership : .erase tags enterSafe ∈ s.chan source target) :
    .erase tags enterSafe ∈ s₀.chan source target := by
  cases origin with
  | committed => exact membership
  | @received from_ sender others safe rest head =>
      by_cases same : source = from_ ∧ target = pid
      · obtain ⟨rfl, rfl⟩ := same
        rw [head] at membership
        simp only [State.setQueue, Channels.setQueue_same]
        rcases List.mem_cons.mp membership with isHead | remaining
        · cases isHead
        · exact List.mem_cons_of_mem _ remaining
      · simpa only [State.setQueue, Channels.setQueue_other _ _ same] using membership

theorem Origin.erased {s₀ : State n Tag Item} {pid : Fin n} {other : Tag}
    (origin : Origin s pid other s₀) : s₀.history.erased = s.history.erased ∧
      s₀.history.collected = s.history.collected := by
  cases origin <;> exact ⟨rfl, rfl⟩

def StoresErased (tag : Tag) (s : State n Tag Item) (action : Action n Tag Item) : Prop :=
  match storing s action with
  | some (pid, other, _, _) => other = tag ∧ (pid, tag) ∈ s.history.erased
  | none => False

instance (tag : Tag) (s : State n Tag Item) (action : Action n Tag Item) :
    Decidable (StoresErased tag s action) :=
  decidable_of_iff ((storing s action).any fun stored =>
      decide (stored.2.1 = tag ∧ (stored.1, tag) ∈ s.history.erased)) (by
    unfold StoresErased
    cases storing s action <;> simp)

/-- The tag is put at most once, and no process inserts the item after it has
erased it. -/
def DeliveredFirst (tag : Tag) (s : State n Tag Item) (action : Action n Tag Item) : Prop :=
  PutOnce tag s action ∧ ¬ StoresErased tag s action

instance (tag : Tag) (s : State n Tag Item) (action : Action n Tag Item) :
    Decidable (DeliveredFirst tag s action) :=
  inferInstanceAs (Decidable (_ ∧ _))

theorem entry_setEntry_item {process : Process n Tag Item} {other : Tag} {entry : Entry n Item}
    (same : other = tag → entry.item = (process.entry tag).item) :
    ((process.setEntry other (some entry)).entry tag).item = (process.entry tag).item := by
  rw [entry_setEntry]
  split
  · rename_i isTag
    exact same isTag.symm
  · rfl

/-- A process erases its entry, because the count is used up there or because it
was told to. -/
theorem Erasing.erased (erasing : Erasing tag s) {pid : Fin n} {other : Tag}
    {process changed : Process n Tag Item} (kept : Kept (s.proc pid) process)
    (proc : next.proc = Function.update s.proc pid changed)
    (table : changed.table = Function.update process.table other none)
    (erased : next.history.erased = (pid, other) :: s.history.erased) (q : Fin n)
    (gone : (q, tag) ∈ next.history.erased) : ((next.proc q).entry tag).item = none := by
  rw [proc]
  by_cases here : pid = q ∧ other = tag
  · obtain ⟨rfl, rfl⟩ := here
    simp [Process.entry, table, Entry.placeholder]
  · rw [(entry_apply_other kept table here).1]
    apply erasing.gone
    rw [erased, List.mem_cons] at gone
    apply gone.resolve_left
    rintro ⟨⟩
    exact here ⟨rfl, rfl⟩

omit [DecidableEq Tag] in
/-- The process which has used up the count notes the tag, if several processes
consume it and there is another process. -/
theorem listed_of_several {tuner : Tuner n Tag} {source target : Fin n}
    {list erasedSer : Option (List Tag)} (several : consumersSeveral (tuner.consumedOn tag))
    (different : target ≠ source)
    (noted : (¬ (n > 1 ∧ ¬ amOnlyConsumer source (tuner.consumedOn tag)) ∧ erasedSer = list) ∨
      erasedSer = some (list.getD [] ++ [tag])) : tag ∈ erasedSer.getD [] := by
  have severalHere : n > 1 ∧ ¬ amOnlyConsumer source (tuner.consumedOn tag) := by
    refine ⟨?_, by simp [amOnlyConsumer_of_several several]⟩
    have differentVal : target.val ≠ source.val := Fin.val_ne_of_ne different
    omega
  rcases noted with ⟨only, -⟩ | rfl
  · exact absurd severalHere only
  · simp

omit [DecidableEq Tag] in
/-- After the first tag of an erase message has been handled, the others are
still to be erased. -/
theorem erase_mem_tail {channels : Channels (Fin n) (Msg n Tag Item)}
    {from_ pid source target : Fin n} {other : Tag} {tags tags' : List Tag} {enterSafe enterSafe' : Bool}
    {rest : List (Msg n Tag Item)}
    (head : channels from_ pid = .erase (other :: tags) enterSafe :: rest)
    (membership : .erase tags' enterSafe' ∈ channels source target) (tagged : tag ∈ tags') :
    (target = pid ∧ tag = other) ∨ ∃ left safe, tag ∈ left ∧
      .erase left safe ∈ channels.setQueue from_ pid (.erase tags enterSafe :: rest) source target := by
  by_cases here : source = from_ ∧ target = pid
  · obtain ⟨rfl, rfl⟩ := here
    rw [head] at membership
    rw [Channels.setQueue_same]
    rcases List.mem_cons.mp membership with isHead | remaining
    · cases isHead
      rcases List.mem_cons.mp tagged with rfl | later
      · exact .inl ⟨rfl, rfl⟩
      · exact .inr ⟨tags, enterSafe, later, List.mem_cons_self⟩
    · exact .inr ⟨tags', enterSafe', tagged, List.mem_cons_of_mem _ remaining⟩
  · rw [Channels.setQueue_other _ _ here]
    exact .inr ⟨tags', enterSafe', tagged, membership⟩

theorem Erasing.effect {tuner : Tuner n Tag} {action : Action n Tag Item}
    (erasing : Erasing tag s) (several : consumersSeveral (tuner.consumedOn tag))
    (first : ¬ StoresErased tag s action) (effect : Effect tuner s action next) :
    Erasing tag next := by
  cases effect with
  | @quiet s₀ p process sent onPuts history pops kept plain called same =>
      obtain ⟨sameProc, -, -⟩ := pops.same
      refine erasing.apply process (by simp [State.apply, sameProc]) same.erased same.collected
        (fun _ => kept.item tag) kept.erasedSer ?_
      intro source target tags enterSafe tagged membership
      exact Channels.mem_send.mpr (.inl (pops.erase_mem membership tagged))
  | @put p process other item o sent isPut kept plain =>
      refine erasing.apply process rfl rfl rfl (fun _ => kept.item tag) kept.erasedSer ?_
      intro source target tags enterSafe tagged membership
      exact Channels.mem_send.mpr (.inl membership)
  | @insert s₀ p process other item o sent entry pops stores arriving kept absent present _
      count _ plain =>
      obtain ⟨sameProc, sameHistory, -⟩ := pops.same
      refine erasing.apply (process.setEntry other (some entry)) (by simp [State.apply, sameProc])
        (by simp [State.apply, sameHistory]) (by simp [State.apply, sameHistory]) ?_
        kept.erasedSer ?_
      · intro erased
        rw [entry_setEntry_item, kept.item]
        rintro rfl
        exact (first (by rw [StoresErased, stores]; exact ⟨rfl, erased⟩)).elim
      · intro source target tags enterSafe tagged membership
        exact Channels.mem_send.mpr (.inl (pops.erase_mem membership tagged))
  | @record s₀ p process other entry origin kept sameItem _ sameCount notOne =>
      obtain ⟨-, -, sameProc⟩ := origin.history tag
      obtain ⟨sameErased, sameCollected⟩ := origin.erased
      refine erasing.apply (process.setEntry other (some (entry.setOrIncrementGetCount (-1)).1))
        (by simp [State.apply, sameProc]) (by simp [History.decrement, sameErased])
        (by simp [History.decrement, sameCollected]) ?_ kept.erasedSer ?_
      · intro _
        rw [entry_setEntry_item, kept.item]
        rintro rfl
        rw [Entry.setOrIncrementGetCount_item, sameItem]
      · intro source target tags enterSafe tagged membership
        exact Channels.mem_send.mpr (.inl (origin.erase_mem membership))
  | @gone s₀ p process other erasedSer origin kept usedUp noted =>
      obtain ⟨-, -, sameProc⟩ := origin.history tag
      obtain ⟨sameErased, sameCollected⟩ := origin.erased
      constructor
      · apply erasing.erased kept (by simp [State.apply, sameProc]; rfl) rfl
        simp [History.decrement, sameErased]
      · intro source collected
        simp only [History.decrement, if_true, sameErased, sameCollected, List.mem_cons,
          Prod.mk.injEq] at collected ⊢
        by_cases here : source = p ∧ tag = other
        · obtain ⟨rfl, rfl⟩ := here
          refine ⟨.inl ⟨rfl, rfl⟩, fun target different => .inr (.inl ?_)⟩
          simpa [State.apply] using listed_of_several several different noted
        · obtain ⟨erased, told⟩ := erasing.told source (collected.resolve_left here)
          refine ⟨.inr erased, fun target different => ?_⟩
          apply (told target different).mono
          · intro pair old
            simp [old]
          · intro listed
            by_cases same : source = p
            · subst same
              rcases noted with ⟨-, rfl⟩ | rfl <;> simp [State.apply, kept.erasedSer, listed]
            · simpa [State.apply, same, sameProc] using listed
          · intro tags enterSafe membership tagged
            refine .inr (.inr ⟨tags, enterSafe, ?_, tagged⟩)
            exact Channels.mem_send.mpr (.inl (origin.erase_mem membership))
  | @collect p other o numgc owned negative counts =>
      refine erasing.apply { getCountCollect (s.proc p) other o with numgc := numgc } rfl rfl rfl
        ?_ rfl ?_
      · intro _
        apply entry_setEntry_item
        rintro rfl
        rfl
      · intro source target tags enterSafe tagged membership
        exact Channels.mem_send.mpr (.inl membership)
  | @erase from_ p other tags enterSafe rest head =>
      constructor
      · exact erasing.erased (.refl (s.proc p)) rfl rfl rfl
      · intro source collected
        obtain ⟨erased, told⟩ := erasing.told source collected
        refine ⟨List.mem_cons_of_mem _ erased, fun target different => ?_⟩
        apply (told target different).mono
        · exact fun _ old => List.mem_cons_of_mem _ old
        · intro listed
          by_cases same : source = p
          · subst same
            simpa [State.apply, eraseAlien, Process.setEntry] using listed
          · simpa [State.apply, State.setQueue, same] using listed
        · intro tags' enterSafe' membership tagged
          apply (erase_mem_tail head membership tagged).imp
          · rintro ⟨rfl, rfl⟩
            exact List.mem_cons_self
          · rintro ⟨left, safe, taggedLeft, remaining⟩
            exact .inr ⟨left, safe, Channels.mem_send.mpr (.inl remaining), taggedLeft⟩

omit [DecidableEq Tag] in
theorem Erasing.flush (erasing : Erasing tag s) (flush : Flush s next) : Erasing tag next := by
  constructor
  · intro pid erased
    rw [flush.history.1] at erased
    rw [flush.entry]
    exact erasing.gone pid erased
  · intro source collected
    rw [flush.history.1] at collected
    obtain ⟨erased, told⟩ := erasing.told source collected
    refine ⟨flush.history.1 ▸ erased, fun target different => ?_⟩
    have before := told target different
    cases flush with
    | none => exact before
    | counts p enterSafe numgc =>
        apply before.mono
        · exact fun _ old => old
        · intro listed
          by_cases same : source = p
          · subst same
            simpa [State.apply, CnC.Item.sendGetcounts] using listed
          · simpa [State.apply, same] using listed
        · intro tags enterSafe membership tagged
          exact .inr (.inr ⟨tags, enterSafe, Channels.mem_send.mpr (.inl membership), tagged⟩)
    | erased p enterSafe =>
        rcases before with old | listed | ⟨tags, safe, membership, tagged⟩
        · exact .inl old
        · by_cases same : source = p
          · subst same
            refine .inr (.inr ⟨(s.proc source).erasedSer.getD [], enterSafe, ?_, listed⟩)
            exact Channels.mem_send.mpr (.inr ⟨rfl, mem_broadcast.mpr ⟨different, rfl⟩⟩)
          · exact .inr (.inl (by simpa [State.apply, same] using listed))
        · exact .inr (.inr ⟨tags, safe, Channels.mem_send.mpr (.inl membership), tagged⟩)

/-- In every run in which no process inserts the item after it has erased it:
when its count has been used up at one process, all erase lists are sent and no
message is in flight, no process holds a copy. -/
theorem no_copy_after_erase [DecidableEq Item] {tuner : Tuner n Tag} (owner : Fin n)
    (several : consumersSeveral (tuner.consumedOn tag))
    (reached : Reached (system tuner) (DeliveredFirst tag) s)
    (collected : (owner, tag) ∈ s.history.collected)
    (allSent : ∀ pid, (s.proc pid).erasedSer = none) (noMessages : s.chan.Empty) :
    ∀ pid, ((s.proc pid).entry tag).item = none := by
  have erasing : Erasing tag s := by
    refine Reached.invariant (Erasing tag) ?_ ?_ reached
    · rintro _ rfl
      constructor <;> simp [start]
    · intro before action next _ erasing allowed stepped
      obtain ⟨middle, effect, flush⟩ := effect_of_step stepped
      exact (erasing.effect several allowed.2 effect).flush flush
  obtain ⟨erased, told⟩ := erasing.told owner collected
  intro pid
  apply erasing.gone
  by_cases same : pid = owner
  · exact same ▸ erased
  rcases told pid same with gone | listed | ⟨tags, enterSafe, membership, -⟩
  · exact gone
  · simp [allSent owner] at listed
  · simp [noMessages owner pid] at membership

/-- Both consumers receive item 7 before its owner, process 1, uses up its
count. -/
def deliverAndErase : List (Action 3 Nat Nat) :=
  [.put 0 7 42, .receive 0 1, .receive 0 2, .get 1 7, .commit 1 7, .receive 1 2, .receive 1 2,
    .receive 1 0, .receive 1 0]

theorem no_copy_after_erase_deliverAndErase :
    ∃ s : State 3 Nat Nat,
      (system (twoConsumers 1 (by decide))).run (DeliveredFirst 7) (start 3 Nat Nat)
          deliverAndErase = some s ∧
        (1, 7) ∈ s.history.collected ∧ s.chan.Empty ∧
        ∀ pid, ((s.proc pid).entry 7).item = none := by
  have reached : Reached (system (twoConsumers 1 (by decide))) (DeliveredFirst 7) _ :=
    Reached.run (.initial rfl) deliverAndErase rfl
  exact ⟨_, rfl, by decide, by decide, no_copy_after_erase 1 (by decide) reached (by decide)
    (by decide) (by decide)⟩

/-- The owner of item 7, process 1, uses up its count and tells process 2 to
erase the item before process 2 receives it from process 0. -/
def eraseBeforeDeliver : List (Action 3 Nat Nat) :=
  [.put 0 7 42, .receive 0 1, .get 1 7, .commit 1 7, .receive 1 2, .receive 1 2, .receive 1 0,
    .receive 1 0, .receive 0 2]

/-- Process 2 keeps its copy, and no message which could erase it is left. -/
theorem copy_kept :
    ∃ s : State 3 Nat Nat, Reached (system (twoConsumers 1 (by decide))) (PutOnce 7) s ∧
      s.history.owner 7 = some 1 ∧ (1, 7) ∈ s.history.collected ∧
      (∀ pid, (s.proc pid).erasedSer = none ∧ ∀ receiver, (s.proc pid).sers receiver = none) ∧
      s.chan.Empty ∧ ((s.proc 2).entry 7).item = some 42 := by
  refine ⟨_, Reached.run (.initial rfl) eraseBeforeDeliver rfl, rfl, by decide, by decide,
    by decide, rfl⟩

end Effects

end CnC.Item
