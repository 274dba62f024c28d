import CnC.Item.Callbacks

/-!
# Gathering items

`gather` asks all other processes for the items which they own.  Each of them
answers in a service task, which looks at one entry of its table after the
other, and the items of the answer are put into the table of the root.

The messages of the gathering have channels of their own, so that they may
overtake the other messages of the collection.  In all runs with gathering,
`ownership_agreed` proves that all processes agree on the owner of an item without
get-count, and that its `on_put` callbacks are called once.
-/

namespace CnC.Item

open Network Transition

universe u

variable {n : Nat} {Tag Item : Type u}

inductive GatherMsg (n : Nat) (Tag Item : Type u) where
  | gatherReq (root : Fin n)
  | gatherRes (owner : Fin n) (items : List (Tag × Item))
  deriving DecidableEq

/-- The collection with its gathering: `tasks` are the service tasks on each
process, with the process which asked and what they have written so far. -/
structure GatherState (n : Nat) (Tag Item : Type u) where
  coll : State n Tag Item
  chan : Channels (Fin n) (GatherMsg n Tag Item)
  tasks : Fin n → List (Fin n × List (Tag × Item))

inductive GatherAction (n : Nat) (Tag Item : Type u) where
  | coll (action : Action n Tag Item)
  | gather (pid : Fin n)
  | visit (pid root : Fin n) (items : List (Tag × Item)) (tag : Tag)
  | respond (pid root : Fin n) (items : List (Tag × Item))
  | receive (source target : Fin n)

section System

variable [DecidableEq Tag] [DecidableEq Item] (tuner : Tuner n Tag)

/-- `item_gather`: an entry is written if there is an item which the process
owns. -/
def itemGather (pid : Fin n) (process : Process n Tag Item) (tag : Tag) : List (Tag × Item) :=
  match (process.entry tag).item with
  | some item => if (process.entry tag).owner = some pid then [(tag, item)] else []
  | none => []

/-- `recv_msg` for the messages of the gathering.  The items of an answer are put
one after the other; the last step tells the thread which waits. -/
def GatherState.recvMsg (s : GatherState n Tag Item) (source target : Fin n)
    (rest : List (GatherMsg n Tag Item)) : GatherMsg n Tag Item → GatherState n Tag Item
  | .gatherReq root =>
      { s with
        chan := s.chan.setQueue source target rest
        tasks := Function.update s.tasks target ((root, []) :: s.tasks target) }
  | .gatherRes owner ((tag, item) :: items) =>
      { s with
        coll := s.coll.insertAt tuner target (s.coll.proc target) tag item owner
        chan := s.chan.setQueue source target (.gatherRes owner items :: rest) }
  | .gatherRes _ [] =>
      { s with
        coll := s.coll.apply target
          ({ s.coll.proc target with gathering := (s.coll.proc target).gathering + 1 }, [])
        chan := s.chan.setQueue source target rest }

def gatherStep (s : GatherState n Tag Item) :
    GatherAction n Tag Item → Option (GatherState n Tag Item)
  | .coll action => (step tuner s.coll action).map fun coll => { s with coll := coll }
  | .gather pid => some { s with chan := s.chan.post pid (others pid) (.gatherReq pid) }
  | .visit pid root items tag =>
      if (root, items) ∈ s.tasks pid then
        some { s with
          tasks := Function.update s.tasks pid
            ((root, items ++ itemGather pid (s.coll.proc pid) tag) ::
              (s.tasks pid).erase (root, items)) }
      else none
  | .respond pid root items =>
      if (root, items) ∈ s.tasks pid then
        some { s with
          tasks := Function.update s.tasks pid ((s.tasks pid).erase (root, items))
          chan := s.chan.send pid [(root, .gatherRes pid items)] }
      else none
  | .receive source target =>
      match s.chan source target with
      | [] => none
      | message :: rest => some (s.recvMsg tuner source target rest message)

def gatherSystem : System (GatherState n Tag Item) (GatherAction n Tag Item) where
  Initial s := s = { coll := start n Tag Item, chan := fun _ _ => [], tasks := fun _ => [] }
  step := gatherStep tuner

omit [DecidableEq Tag] [DecidableEq Item] in
/-- The tag is put at most once. -/
def GatherPutOnce (tag : Tag) (s : GatherState n Tag Item) : GatherAction n Tag Item → Prop
  | .coll action => PutOnce tag s.coll action
  | _ => True

instance (tag : Tag) (s : GatherState n Tag Item) (action : GatherAction n Tag Item) :
    Decidable (GatherPutOnce tag s action) := by
  unfold GatherPutOnce
  split <;> infer_instance

end System

def FromOwner (tag : Tag) (coll : State n Tag Item) (pid : Fin n) (items : List (Tag × Item)) :
    Prop :=
  ∀ item, (tag, item) ∈ items →
    coll.history.owner tag = some pid ∧ coll.history.value tag = some item

def GatherMsg.Sound (tag : Tag) (coll : State n Tag Item) : GatherMsg n Tag Item → Prop
  | .gatherReq _ => True
  | .gatherRes owner items => FromOwner tag coll owner items

structure Gathered [DecidableEq Tag] (tag : Tag) (s : GatherState n Tag Item) : Prop where
  sound : Sound tag s.coll
  owned : Owned tag s.coll
  tasks : ∀ pid root items, (root, items) ∈ s.tasks pid → FromOwner tag s.coll pid items
  messages : ∀ i j, ∀ message ∈ s.chan i j, message.Sound tag s.coll

section Steps

variable [DecidableEq Tag] {tuner : Tuner n Tag} {tag : Tag}

theorem assigned_recvMsg {s next : State n Tag Item} {source target : Fin n}
    {message : Msg n Tag Item} {rest : List (Msg n Tag Item)}
    (received : s.recvMsg tuner source target rest message = some next) :
    next.history.owner = s.history.owner ∧ next.history.value = s.history.value := by
  cases message with
  | request other recpnt =>
      cases received
      exact ⟨rfl, rfl⟩
  | deliver o other item =>
      cases received
      exact ⟨rfl, rfl⟩
  | deliverToOwn other item =>
      cases received
      exact ⟨rfl, rfl⟩
  | getCounts pid tags enterSafe =>
      cases tags with
      | nil =>
          cases received
          exact ⟨rfl, rfl⟩
      | cons other tags =>
          simp only [State.recvMsg, State.decrementAt] at received
          split at received <;> cases received
          exact ⟨rfl, rfl⟩
  | erase tags enterSafe =>
      cases tags with
      | nil =>
          cases received
          exact ⟨rfl, rfl⟩
      | cons other tags =>
          cases received
          exact ⟨rfl, rfl⟩

variable [DecidableEq Item]

theorem assigned_step {s next : State n Tag Item} {action : Action n Tag Item} {o : Fin n}
    (once : PutOnce tag s action) (stepped : step tuner s action = some next)
    (assigned : s.history.owner tag = some o) :
    next.history.owner tag = some o ∧ next.history.value tag = s.history.value tag := by
  rw [← assigned]
  cases action with
  | get pid other =>
      cases stepped
      simp only [State.getAt]
      split <;> exact ⟨rfl, rfl⟩
  | getFromEnv pid other =>
      cases stepped
      simp only [State.getAt]
      split <;> exact ⟨rfl, rfl⟩
  | put pid other item =>
      have different : tag ≠ other := by
        rintro rfl
        rw [once rfl] at assigned
        cases assigned
      simp only [step] at stepped
      split at stepped <;> cases stepped
      simp [History.assign, different]
  | insert pid other item owner =>
      simp only [step, Option.ite_none_right_eq_some, Option.some.injEq] at stepped
      obtain ⟨-, rfl⟩ := stepped
      exact ⟨rfl, rfl⟩
  | commit pid other =>
      simp only [step, Option.ite_none_right_eq_some, State.decrementAt] at stepped
      obtain ⟨-, decremented⟩ := stepped
      split at decremented <;> cases decremented
      exact ⟨rfl, rfl⟩
  | clear pid other =>
      cases stepped
      exact ⟨rfl, rfl⟩
  | collect pid other =>
      simp only [step] at stepped
      split at stepped <;> cases stepped
      exact ⟨rfl, rfl⟩
  | sendGetcounts pid enterSafe =>
      cases stepped
      exact ⟨rfl, rfl⟩
  | sendErased pid enterSafe =>
      cases stepped
      exact ⟨rfl, rfl⟩
  | receive source target =>
      simp only [step] at stepped
      split at stepped
      · cases stepped
      · obtain ⟨sameOwner, sameValue⟩ := assigned_recvMsg stepped
        rw [sameOwner, sameValue]
        exact ⟨rfl, rfl⟩

omit [DecidableEq Tag] [DecidableEq Item] in
theorem FromOwner.mono {coll next : State n Tag Item} {pid : Fin n} {items : List (Tag × Item)}
    (fromOwner : FromOwner tag coll pid items)
    (assigned : ∀ o, coll.history.owner tag = some o → next.history.owner tag = some o ∧
      next.history.value tag = coll.history.value tag) : FromOwner tag next pid items := by
  intro item listed
  obtain ⟨isOwner, isValue⟩ := fromOwner item listed
  obtain ⟨stays, sameValue⟩ := assigned pid isOwner
  exact ⟨stays, sameValue.trans isValue⟩

omit [DecidableEq Tag] [DecidableEq Item] in
theorem GatherMsg.Sound.mono {coll next : State n Tag Item} {message : GatherMsg n Tag Item}
    (sound : message.Sound tag coll)
    (assigned : ∀ o, coll.history.owner tag = some o → next.history.owner tag = some o ∧
      next.history.value tag = coll.history.value tag) : message.Sound tag next := by
  cases message with
  | gatherReq root => trivial
  | gatherRes owner items => exact FromOwner.mono sound assigned

omit [DecidableEq Tag] [DecidableEq Item] in
theorem fromOwner_itemGather {coll : State n Tag Item} (sound : CnC.Item.Sound tag coll)
    (pid : Fin n) (other : Tag) :
    FromOwner tag coll pid (itemGather pid (coll.proc pid) other) := by
  intro item listed
  unfold itemGather at listed
  split at listed
  · rename_i found present
    split at listed
    · rename_i own
      obtain ⟨rfl, rfl⟩ := Prod.mk.inj (List.mem_singleton.mp listed)
      have known := sound.ofProcess pid
      exact ⟨known.ownerAgrees pid own, known.valueAgrees _ present⟩
    · cases listed
  · cases listed

omit [DecidableEq Item] in
theorem Gathered.recvMsg {s : GatherState n Tag Item} (gathered : Gathered tag s)
    (uncounted : tuner.getCount tag = noGetCount) {source target : Fin n}
    {message : GatherMsg n Tag Item} {rest : List (GatherMsg n Tag Item)}
    (head : s.chan source target = message :: rest) :
    Gathered tag (s.recvMsg tuner source target rest message) := by
  have known : message.Sound tag s.coll :=
    gathered.messages source target message (head ▸ List.mem_cons_self)
  have popped : ∀ i j, ∀ other ∈ s.chan.setQueue source target rest i j,
      other.Sound tag s.coll :=
    fun i j other old => gathered.messages i j other (Channels.mem_of_mem_setQueue_tail head old)
  have process := gathered.sound.ofProcess target
  have idle := gathered.owned.idle.processes target
  cases message with
  | gatherReq root =>
      refine ⟨gathered.sound, gathered.owned, ?_, popped⟩
      intro pid asked items listed
      by_cases same : pid = target
      · subst same
        simp only [GatherState.recvMsg, Function.update_self, List.mem_cons] at listed
        rcases listed with new | old
        · cases new
          exact fun item impossible => by cases impossible
        · exact gathered.tasks pid asked items old
      · simp only [GatherState.recvMsg, Function.update_of_ne same] at listed
        exact gathered.tasks pid asked items listed
  | gatherRes owner items =>
      cases items with
      | nil =>
          refine ⟨?_, ?_, gathered.tasks, popped⟩
          · exact gathered.sound.apply
              ⟨process.congr rfl (List.Subset.refl _) process.putting process.sers
                process.erasedSer, Sent.sound_nil⟩
          · have aside : Aside tag (s.coll.proc target) ({ s.coll.proc target with
                gathering := (s.coll.proc target).gathering + 1 }, []) :=
              aside_of_table rfl ⟨idle.getList, idle.sers, idle.erasedSer⟩ idle_nil
            exact gathered.owned.aside .refl aside (fun _ _ => id) rfl rfl rfl rfl
      | cons gatheredItem items =>
          obtain ⟨other, item⟩ := gatheredItem
          have agrees : other = tag → s.coll.history.owner tag = some owner ∧
              s.coll.history.value tag = some item := by
            rintro rfl
            exact known item List.mem_cons_self
          refine ⟨gathered.sound.insertAt process agrees fun _ => idle.getList, ?_,
            gathered.tasks, ?_⟩
          · by_cases same : tag = other
            · subst same
              exact gathered.owned.insert uncounted (agrees rfl).1 rfl idle rfl rfl rfl
                (fun _ _ _ => id) (fun _ _ _ _ => id)
            · refine gathered.owned.aside .refl
                (aside_putOrDelete tuner target idle same item owner) ?_ rfl rfl rfl
                (putCalls_insertAt_other same item owner)
              rw [putOrDelete_putting]
              exact fun _ _ => id
          · intro i j message membership
            rcases Channels.mem_setQueue membership with ⟨-, -, queued⟩ | old
            · rcases List.mem_cons.mp queued with rfl | old
              · exact fun v listed => known v (List.mem_cons_of_mem _ listed)
              · exact gathered.messages source target message
                  (head ▸ List.mem_cons_of_mem _ old)
            · exact gathered.messages i j message old

theorem Gathered.step {s next : GatherState n Tag Item} {action : GatherAction n Tag Item}
    (gathered : Gathered tag s) (uncounted : tuner.getCount tag = noGetCount)
    (once : GatherPutOnce tag s action) (stepped : gatherStep tuner s action = some next) :
    Gathered tag next := by
  cases action with
  | coll action =>
      simp only [gatherStep, Option.map_eq_some_iff] at stepped
      obtain ⟨coll, taken, rfl⟩ := stepped
      have unlisted : ∀ pid, tag ∉ (s.coll.proc pid).getList := fun pid =>
        (gathered.owned.idle.processes pid).getList
      refine ⟨gathered.sound.step once (fun _ => unlisted) taken,
        gathered.owned.step gathered.sound uncounted once taken, ?_, ?_⟩
      · exact fun pid root items listed =>
          (gathered.tasks pid root items listed).mono fun _ => assigned_step once taken
      · exact fun i j message old =>
          (gathered.messages i j message old).mono fun _ => assigned_step once taken
  | gather pid =>
      cases stepped
      refine ⟨gathered.sound, gathered.owned, gathered.tasks, ?_⟩
      intro i j message membership
      rcases Channels.mem_post.mp membership with old | ⟨-, -, rfl⟩
      · exact gathered.messages i j message old
      · trivial
  | visit pid root items other =>
      simp only [gatherStep, Option.ite_none_right_eq_some, Option.some.injEq] at stepped
      obtain ⟨pending, rfl⟩ := stepped
      refine ⟨gathered.sound, gathered.owned, ?_, gathered.messages⟩
      intro q asked written listed
      by_cases same : q = pid
      · subst same
        simp only [Function.update_self, List.mem_cons] at listed
        rcases listed with new | old
        · cases new
          intro item membership
          rcases List.mem_append.mp membership with before | visited
          · exact gathered.tasks q root items pending item before
          · exact fromOwner_itemGather gathered.sound q other item visited
        · exact gathered.tasks q asked written (List.mem_of_mem_erase old)
      · simp only [Function.update_of_ne same] at listed
        exact gathered.tasks q asked written listed
  | respond pid root items =>
      simp only [gatherStep, Option.ite_none_right_eq_some, Option.some.injEq] at stepped
      obtain ⟨pending, rfl⟩ := stepped
      refine ⟨gathered.sound, gathered.owned, ?_, ?_⟩
      · intro q asked written listed
        by_cases same : q = pid
        · subst same
          simp only [Function.update_self] at listed
          exact gathered.tasks q asked written (List.mem_of_mem_erase listed)
        · simp only [Function.update_of_ne same] at listed
          exact gathered.tasks q asked written listed
      · intro i j message membership
        rcases Channels.mem_send.mp membership with old | ⟨-, new⟩
        · exact gathered.messages i j message old
        · cases List.mem_singleton.mp new
          exact gathered.tasks pid root items pending
  | receive source target =>
      simp only [gatherStep] at stepped
      split at stepped
      · cases stepped
      · rename_i head
        cases stepped
        exact gathered.recvMsg uncounted head

theorem gathered_of_reached (uncounted : tuner.getCount tag = noGetCount)
    {s : GatherState n Tag Item}
    (reached : Reached (gatherSystem tuner) (GatherPutOnce tag) s) : Gathered tag s := by
  refine Reached.invariant (Gathered tag) ?_ ?_ reached
  · rintro _ rfl
    refine ⟨sound_start, ⟨?_, ?_, ?_, ?_, ?_⟩, ?_, ?_⟩
    · refine ⟨fun pid => ⟨?_, ?_, ?_⟩, ?_⟩ <;> simp [start]
    · exact fun pid present => absurd rfl present
    · exact fun o isOwner => by cases isOwner
    · exact fun o isOwner => by cases isOwner
    · exact fun _ => rfl
    · exact fun pid root items listed => by cases listed
    · exact fun i j message membership => by cases membership
  · intro before action next _ gathered once stepped
    exact gathered.step uncounted once stepped

end Steps

def Process.Stores (process : Process n Tag Item) (tag : Tag) : Prop :=
  (process.entry tag).item ≠ none

/-- `am_owner`, for the entry of a tag. -/
def Process.AmOwner (pid : Fin n) (process : Process n Tag Item) (tag : Tag) : Prop :=
  (process.entry tag).owner = some pid

/-- The item was put, and its owner has handled the messages of the put; those to
other processes may still be on their way. -/
def PutHandled (tag : Tag) (coll : State n Tag Item) : Prop :=
  ∃ o, coll.history.owner tag = some o ∧ ∀ item, ¬ Arriving coll o tag item o

theorem putHandled_of_empty {coll : State n Tag Item} {tag : Tag} {o : Fin n}
    (isOwner : coll.history.owner tag = some o) (notPutting : (coll.proc o).putting = [])
    (noMessages : ∀ source, coll.chan source o = []) : PutHandled tag coll := by
  refine ⟨o, isOwner, fun item arriving => ?_⟩
  cases arriving with
  | putting pending =>
      rw [notPutting] at pending
      cases pending
  | deliver membership =>
      rw [noMessages] at membership
      cases membership
  | deliverToOwn membership _ =>
      rw [noMessages] at membership
      cases membership

/-- In every run in which a tag without get-count is put once: all processes which
store the item record the same owner, and the `on_put` callbacks were called by one
process at most, which stores the item and owns it.  Once the messages of the put
have been handled, exactly one process stores the item as its owner, and this
process has called the callbacks, once. -/
theorem ownership_agreed [DecidableEq Tag] [DecidableEq Item] {tuner : Tuner n Tag} {tag : Tag}
    (uncounted : tuner.getCount tag = noGetCount) {s : GatherState n Tag Item}
    (reached : Reached (gatherSystem tuner) (GatherPutOnce tag) s) :
    (∀ p q, (s.coll.proc p).Stores tag → (s.coll.proc q).Stores tag →
      ((s.coll.proc p).entry tag).owner ≠ none ∧
        ((s.coll.proc p).entry tag).owner = ((s.coll.proc q).entry tag).owner) ∧
    (s.coll.putCalls tag = [] ∨ ∃ o, s.coll.putCalls tag = [o] ∧
      (s.coll.proc o).Stores tag ∧ (s.coll.proc o).AmOwner o tag) ∧
    (PutHandled tag s.coll →
      (∃! o, (s.coll.proc o).Stores tag ∧ (s.coll.proc o).AmOwner o tag) ∧
      ∃ o, (s.coll.proc o).AmOwner o tag ∧ s.coll.putCalls tag = [o]) := by
  obtain ⟨sound, owned, -, -⟩ := gathered_of_reached uncounted reached
  have storedOwner : ∀ p, (s.coll.proc p).Stores tag → ∃ o, s.coll.history.owner tag = some o ∧
      ((s.coll.proc p).entry tag).owner = some o := by
    intro p stores
    have known := sound.ofProcess p
    have hasOwner : ((s.coll.proc p).entry tag).owner.isSome := by
      rw [← known.owned, Option.isSome_iff_ne_none]
      exact stores
    obtain ⟨o, found⟩ := Option.isSome_iff_exists.mp hasOwner
    exact ⟨o, known.ownerAgrees o found, found⟩
  have ownerAt : ∀ o, s.coll.history.owner tag = some o → (s.coll.proc o).Stores tag →
      (s.coll.proc o).AmOwner o tag ∧ s.coll.putCalls tag = [o] := by
    intro o isOwner stores
    obtain ⟨p, isOwnerToo, found⟩ := storedOwner o stores
    rw [isOwner] at isOwnerToo
    cases isOwnerToo
    exact ⟨found, owned.called o isOwner stores⟩
  refine ⟨?_, ?_, ?_⟩
  · intro p q storesP storesQ
    obtain ⟨o, isOwner, foundP⟩ := storedOwner p storesP
    obtain ⟨o', isOwner', foundQ⟩ := storedOwner q storesQ
    rw [isOwner] at isOwner'
    cases isOwner'
    exact ⟨by simp [foundP], foundP.trans foundQ.symm⟩
  · by_cases stored : ∃ o, s.coll.history.owner tag = some o ∧ (s.coll.proc o).Stores tag
    · obtain ⟨o, isOwner, stores⟩ := stored
      obtain ⟨own, calls⟩ := ownerAt o isOwner stores
      exact .inr ⟨o, calls, stores, own⟩
    · left
      apply owned.uncalled
      intro o isOwner
      by_contra stores
      exact stored ⟨o, isOwner, stores⟩
  · rintro ⟨o, isOwner, handled⟩
    have stores : (s.coll.proc o).Stores tag := by
      intro absent
      obtain ⟨item, arriving⟩ := owned.arriving o isOwner absent
      exact handled item arriving
    obtain ⟨own, calls⟩ := ownerAt o isOwner stores
    refine ⟨⟨o, ⟨stores, own⟩, ?_⟩, o, own, calls⟩
    rintro p ⟨-, ownToo⟩
    have agreed := (sound.ofProcess p).ownerAgrees p ownToo
    rw [isOwner] at agreed
    exact (Option.some.inj agreed).symm

/-- Every item is consumed on process 1, which owns it, and on process 0. -/
def consumedOnTwo : Tuner 3 Nat where
  consumedOn _ := .vector [.pid 1, .pid 0]
  producedOn _ _ := .unknown
  getCount _ := noGetCount
  getCount_le _ := noGetCount_le
  enableGC := 1
  enableGC_pos := Nat.one_pos

def putAndGather : List (GatherAction 3 Nat Nat) :=
  [.coll (.put 0 7 42), .coll (.receive 0 1), .coll (.insert 0 7 42 1), .gather 2, .receive 2 1,
    .visit 1 2 [] 7, .respond 1 2 [(7, 42)], .receive 1 2, .receive 1 2]

theorem ownership_agreed_putAndGather :
    ∃ s : GatherState 3 Nat Nat,
      (gatherSystem consumedOnTwo).run (GatherPutOnce 7)
        { coll := start 3 Nat Nat, chan := fun _ _ => [], tasks := fun _ => [] } putAndGather =
          some s ∧
      (∀ pid, (s.coll.proc pid).Stores 7) ∧ PutHandled 7 s.coll ∧
      (∃! o, (s.coll.proc o).Stores 7 ∧ (s.coll.proc o).AmOwner o 7) ∧
      ∃ o, (s.coll.proc o).AmOwner o 7 ∧ s.coll.putCalls 7 = [o] := by
  have reached : Reached (gatherSystem consumedOnTwo :
      System (GatherState 3 Nat Nat) (GatherAction 3 Nat Nat)) (GatherPutOnce 7) _ :=
    Reached.run (.initial rfl) putAndGather rfl
  have agreed := ownership_agreed rfl reached
  refine ⟨_, rfl, ?stored, ?handled, agreed.2.2 ?handled⟩
  case stored =>
    unfold Process.Stores
    decide
  case handled =>
    exact putHandled_of_empty (o := 1) rfl rfl (by decide)

end CnC.Item
