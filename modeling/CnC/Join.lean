import CnC.Library.Network
import CnC.Library.Transition

/-!
# The join graph

`CnC::join` keeps the tags put into its two input collections and puts the
pair of every two of them into the output collection.  Each process keeps only
the tags put locally.  A put first broadcasts the tag and then enters the
section under the mutex which joins it with the local tags of the other
collection and stores it; a received tag is joined with the local tags of the
other collection, but not stored.

Since the broadcast comes before the tag is stored, two tags put at the same
time on different processes can miss each other.  `Blind` describes the step
in which this happens, and `complete_of_no_blind_step` proves that no pair is
lost in runs without it.
-/

namespace CnC.Join

open Network Transition

universe u

variable {n : Nat} {TagA TagB TagC : Type u}

inductive Msg (TagA TagB : Type u) where
  | joinA (tag : TagA)
  | joinB (tag : TagB)
  deriving DecidableEq

/-- The private data of the graph on one process, together with the `on_put`
callbacks which have returned from `send_tag` and not yet got the mutex. -/
structure Process (TagA TagB : Type u) where
  seta : List TagA
  setb : List TagB
  sentA : List TagA
  sentB : List TagB

/-- The graph on all processes.  `putA` and `putB` record for which tags an
`on_put` callback has been called, and where; no step reads them. -/
structure State (n : Nat) (TagA TagB TagC : Type u) where
  proc : Fin n → Process TagA TagB
  chan : Channels (Fin n) (Msg TagA TagB)
  out : List TagC
  putA : List (Fin n × TagA)
  putB : List (Fin n × TagB)

/-- The two parts of an `on_put` callback, and the handling of the oldest
message from one process at another. -/
inductive Action (n : Nat) (TagA TagB : Type u) where
  | sendA (pid : Fin n) (tag : TagA)
  | insertA (pid : Fin n) (tag : TagA)
  | sendB (pid : Fin n) (tag : TagB)
  | insertB (pid : Fin n) (tag : TagB)
  | deliver (source target : Fin n)

/-- `join_one`: put the pair of the tag with every tag of the other set. -/
def joinOne {Tag Other : Type u} (join : Tag → Other → TagC) (tag : Tag)
    (set : List Other) (out : List TagC) : List TagC :=
  out ++ set.map (join tag)

theorem mem_joinOne {Tag Other : Type u} {join : Tag → Other → TagC} {tag : Tag}
    {set : List Other} {out : List TagC} {pair : TagC} :
    pair ∈ joinOne join tag set out ↔ pair ∈ out ∨ ∃ other ∈ set, join tag other = pair := by
  simp [joinOne]

section Steps

variable [DecidableEq TagA] [DecidableEq TagB] (tagC : TagA → TagB → TagC)

def joinAB (a : TagA) (b : TagB) : TagC := tagC a b

def joinBA (b : TagB) (a : TagA) : TagC := tagC a b

/-- The broadcast of `on_a_put::on_put` by `send_tag`. -/
def onAPutSend (s : State n TagA TagB TagC) (pid : Fin n) (tag : TagA) :
    State n TagA TagB TagC :=
  { s with
    proc := Function.update s.proc pid
      { s.proc pid with sentA := tag :: (s.proc pid).sentA }
    chan := s.chan.post pid (others pid) (.joinA tag)
    putA := (pid, tag) :: s.putA }

/-- The section of `on_a_put::on_put` under the mutex. -/
def onAPutInsert (s : State n TagA TagB TagC) (pid : Fin n) (tag : TagA) :
    State n TagA TagB TagC :=
  { s with
    out := joinOne (joinAB tagC) tag (s.proc pid).setb s.out
    proc := Function.update s.proc pid
      { s.proc pid with
        sentA := (s.proc pid).sentA.erase tag
        seta := (s.proc pid).seta.insert tag } }

def onBPutSend (s : State n TagA TagB TagC) (pid : Fin n) (tag : TagB) :
    State n TagA TagB TagC :=
  { s with
    proc := Function.update s.proc pid
      { s.proc pid with sentB := tag :: (s.proc pid).sentB }
    chan := s.chan.post pid (others pid) (.joinB tag)
    putB := (pid, tag) :: s.putB }

def onBPutInsert (s : State n TagA TagB TagC) (pid : Fin n) (tag : TagB) :
    State n TagA TagB TagC :=
  { s with
    out := joinOne (joinBA tagC) tag (s.proc pid).seta s.out
    proc := Function.update s.proc pid
      { s.proc pid with
        sentB := (s.proc pid).sentB.erase tag
        setb := (s.proc pid).setb.insert tag } }

def recvMsg (process : Process TagA TagB) (out : List TagC) : Msg TagA TagB → List TagC
  | .joinA tag => joinOne (joinAB tagC) tag process.setb out
  | .joinB tag => joinOne (joinBA tagC) tag process.seta out

def step (s : State n TagA TagB TagC) : Action n TagA TagB → Option (State n TagA TagB TagC)
  | .sendA pid tag => some (onAPutSend s pid tag)
  | .insertA pid tag =>
      if tag ∈ (s.proc pid).sentA then some (onAPutInsert tagC s pid tag) else none
  | .sendB pid tag => some (onBPutSend s pid tag)
  | .insertB pid tag =>
      if tag ∈ (s.proc pid).sentB then some (onBPutInsert tagC s pid tag) else none
  | .deliver source target =>
      match s.chan source target with
      | [] => none
      | message :: rest =>
          some { s with
            out := recvMsg tagC (s.proc target) s.out message
            chan := s.chan.setQueue source target rest }

def start (n : Nat) (TagA TagB TagC : Type u) : State n TagA TagB TagC where
  proc _ := { seta := [], setb := [], sentA := [], sentB := [] }
  chan _ _ := []
  out := []
  putA := []
  putB := []

def system (n : Nat) : System (State n TagA TagB TagC) (Action n TagA TagB) where
  Initial s := s = start n TagA TagB TagC
  step := step tagC

/-- All callbacks have returned and no message is in flight. -/
def Quiescent (s : State n TagA TagB TagC) : Prop :=
  (∀ pid, (s.proc pid).sentA = [] ∧ (s.proc pid).sentB = []) ∧ s.chan.Empty

def Complete (s : State n TagA TagB TagC) : Prop :=
  ∀ a ∈ s.putA, ∀ b ∈ s.putB, tagC a.2 b.2 ∈ s.out

/-- The handler of a tag runs on a process where a callback for the other
collection has sent its tag, but not stored it; the sender of the handled tag
has already handled that callback's message, and the pair has not been put. -/
def Blind (s : State n TagA TagB TagC) : Action n TagA TagB → Prop
  | .deliver source target =>
      match s.chan source target with
      | .joinA a :: _ => ∃ b ∈ (s.proc target).sentB,
          Msg.joinB b ∉ s.chan target source ∧ tagC a b ∉ s.out
      | .joinB b :: _ => ∃ a ∈ (s.proc target).sentA,
          Msg.joinA a ∉ s.chan target source ∧ tagC a b ∉ s.out
      | [] => False
  | _ => False

instance [DecidableEq TagC] (s : State n TagA TagB TagC) (action : Action n TagA TagB) :
    Decidable (Blind tagC s action) := by
  unfold Blind
  split
  · split <;> infer_instance
  · infer_instance

/-- What becomes of two tags which were put.  On one process, one of the two
callbacks enters its section last and finds the other tag.  On two processes,
one of the two messages is still to be handled as long as the pair is
missing. -/
structure Tracked (s : State n TagA TagB TagC) : Prop where
  storedA : ∀ pid a, (pid, a) ∈ s.putA → a ∈ (s.proc pid).sentA ∨ a ∈ (s.proc pid).seta
  storedB : ∀ pid b, (pid, b) ∈ s.putB → b ∈ (s.proc pid).sentB ∨ b ∈ (s.proc pid).setb
  onOne : ∀ pid a b, (pid, a) ∈ s.putA → (pid, b) ∈ s.putB →
    tagC a b ∈ s.out ∨ a ∈ (s.proc pid).sentA ∨ b ∈ (s.proc pid).sentB
  onTwo : ∀ p q a b, p ≠ q → (p, a) ∈ s.putA → (q, b) ∈ s.putB →
    tagC a b ∈ s.out ∨ Msg.joinA a ∈ s.chan p q ∨ Msg.joinB b ∈ s.chan q p

end Steps

section Completeness

variable {tagC : TagA → TagB → TagC} {s : State n TagA TagB TagC}

theorem tracked_start : Tracked tagC (start n TagA TagB TagC) where
  storedA := by simp [start]
  storedB := by simp [start]
  onOne := by simp [start]
  onTwo := by simp [start]

theorem Tracked.sendA (tracked : Tracked tagC s) (pid : Fin n) (tag : TagA) :
    Tracked tagC (onAPutSend s pid tag) := by
  constructor
  · intro p a put
    by_cases same : p = pid
    · subst same
      rcases List.mem_cons.mp put with new | old
      · cases new
        simp [onAPutSend]
      · rcases tracked.storedA p a old with sent | stored
        · exact .inl (by simp [onAPutSend, sent])
        · exact .inr (by simp [onAPutSend, stored])
    · have old : (p, a) ∈ s.putA := by simpa [onAPutSend, same] using put
      simpa [onAPutSend, same] using tracked.storedA p a old
  · intro p b put
    have old := tracked.storedB p b put
    by_cases same : p = pid <;> simpa [onAPutSend, same] using old
  · intro p a b putA putB
    by_cases same : p = pid
    · subst same
      rcases List.mem_cons.mp putA with new | old
      · cases new
        simp [onAPutSend]
      · rcases tracked.onOne p a b old putB with found | sent | sent
        · exact .inl found
        · exact .inr (.inl (by simp [onAPutSend, sent]))
        · exact .inr (.inr (by simp [onAPutSend, sent]))
    · have old : (p, a) ∈ s.putA := by simpa [onAPutSend, same] using putA
      simpa [onAPutSend, same] using tracked.onOne p a b old putB
  · intro p q a b different putA putB
    rcases List.mem_cons.mp putA with new | old
    · cases new
      exact .inr (.inl (Channels.mem_post.mpr (.inr ⟨rfl, mem_others.mpr different.symm, rfl⟩)))
    · rcases tracked.onTwo p q a b different old putB with found | flying | flying
      · exact .inl found
      · exact .inr (.inl (Channels.mem_post.mpr (.inl flying)))
      · exact .inr (.inr (Channels.mem_post.mpr (.inl flying)))

theorem Tracked.insertA [DecidableEq TagA] (tracked : Tracked tagC s) (pid : Fin n) (tag : TagA) :
    Tracked tagC (onAPutInsert tagC s pid tag) := by
  have grows : ∀ pair ∈ s.out, pair ∈ (onAPutInsert tagC s pid tag).out :=
    fun pair found => mem_joinOne.mpr (.inl found)
  constructor
  · intro p a put
    have old := tracked.storedA p a put
    by_cases same : p = pid
    · subst same
      by_cases inserted : a = tag
      · exact .inr (by simp [onAPutInsert, inserted])
      · simpa [onAPutInsert, List.mem_erase_of_ne inserted, List.mem_insert_iff, inserted]
          using old
    · simpa [onAPutInsert, same] using old
  · intro p b put
    have old := tracked.storedB p b put
    by_cases same : p = pid <;> simpa [onAPutInsert, same] using old
  · intro p a b putA putB
    have old := tracked.onOne p a b putA putB
    by_cases same : p = pid
    · subst same
      by_cases inserted : a = tag
      · -- the callback for `b` either has stored its tag or still has its section ahead
        rcases tracked.storedB p b putB with sent | stored
        · exact .inr (.inr (by simpa [onAPutInsert] using sent))
        · exact .inl (mem_joinOne.mpr (.inr ⟨b, stored, by rw [inserted, joinAB]⟩))
      · rcases old with found | sent | sent
        · exact .inl (grows _ found)
        · exact .inr (.inl (by simpa [onAPutInsert, List.mem_erase_of_ne inserted] using sent))
        · exact .inr (.inr (by simpa [onAPutInsert] using sent))
    · rcases old with found | sent
      · exact .inl (grows _ found)
      · exact .inr (by simpa [onAPutInsert, same] using sent)
  · intro p q a b different putA putB
    rcases tracked.onTwo p q a b different putA putB with found | flying
    · exact .inl (grows _ found)
    · exact .inr flying

/-- The two collections play the same part, so the steps of `on_b_put` are those
of `on_a_put` in the graph with the collections exchanged. -/
def Msg.swap : Msg TagA TagB → Msg TagB TagA
  | .joinA tag => .joinB tag
  | .joinB tag => .joinA tag

def Process.swap (process : Process TagA TagB) : Process TagB TagA where
  seta := process.setb
  setb := process.seta
  sentA := process.sentB
  sentB := process.sentA

def State.swap (s : State n TagA TagB TagC) : State n TagB TagA TagC where
  proc pid := (s.proc pid).swap
  chan i j := (s.chan i j).map Msg.swap
  out := s.out
  putA := s.putB
  putB := s.putA

theorem mem_map_swap_joinA {queue : List (Msg TagA TagB)} {tag : TagB} :
    Msg.joinA tag ∈ queue.map Msg.swap ↔ Msg.joinB tag ∈ queue := by
  constructor
  · intro membership
    rcases List.mem_map.mp membership with ⟨message, present, equal⟩
    cases message with
    | joinA other => cases equal
    | joinB other => cases equal; exact present
  · intro membership
    exact List.mem_map.mpr ⟨_, membership, rfl⟩

theorem mem_map_swap_joinB {queue : List (Msg TagA TagB)} {tag : TagA} :
    Msg.joinB tag ∈ queue.map Msg.swap ↔ Msg.joinA tag ∈ queue := by
  constructor
  · intro membership
    rcases List.mem_map.mp membership with ⟨message, present, equal⟩
    cases message with
    | joinA other => cases equal; exact present
    | joinB other => cases equal
  · intro membership
    exact List.mem_map.mpr ⟨_, membership, rfl⟩

theorem Tracked.swap (tracked : Tracked tagC s) :
    Tracked (fun b a => tagC a b) s.swap where
  storedA := tracked.storedB
  storedB := tracked.storedA
  onOne pid b a putB putA := by
    rcases tracked.onOne pid a b putA putB with found | sent | sent
    · exact .inl found
    · exact .inr (.inr sent)
    · exact .inr (.inl sent)
  onTwo p q b a different putB putA := by
    rcases tracked.onTwo q p a b different.symm putA putB with found | flying | flying
    · exact .inl found
    · exact .inr (.inr (mem_map_swap_joinB.mpr flying))
    · exact .inr (.inl (mem_map_swap_joinA.mpr flying))

theorem Msg.swap_swap (message : Msg TagA TagB) : message.swap.swap = message := by
  cases message <;> rfl

theorem State.swap_swap (s : State n TagA TagB TagC) : s.swap.swap = s := by
  have queues : ∀ i j, ((s.chan i j).map Msg.swap).map Msg.swap = s.chan i j := by
    intro i j
    rw [List.map_map]
    exact List.map_id'' (fun message => message.swap_swap) _
  cases s
  simp only [State.swap, Process.swap, queues]

theorem update_swap (proc : Fin n → Process TagA TagB) (pid : Fin n)
    (process : Process TagA TagB) :
    (fun i => (Function.update proc pid process i).swap) =
      Function.update (fun i => (proc i).swap) pid process.swap :=
  funext fun i => Function.apply_update (fun _ => Process.swap) proc pid process i

theorem onBPutSend_swap (s : State n TagA TagB TagC) (pid : Fin n) (tag : TagB) :
    (onBPutSend s pid tag).swap = onAPutSend s.swap pid tag := by
  have channels : (fun i j => (s.chan.post pid (others pid) (.joinB tag) i j).map Msg.swap) =
      Channels.post (fun i j => (s.chan i j).map Msg.swap) pid (others pid) (.joinA tag) := by
    funext i j
    by_cases same : i = pid <;>
      simp [Channels.post, Channels.send, same, Msg.swap, List.filter_map, Function.comp_def]
  simp only [onBPutSend, onAPutSend, State.swap, update_swap, channels]
  rfl

theorem onBPutInsert_swap [DecidableEq TagB] (s : State n TagA TagB TagC) (pid : Fin n)
    (tag : TagB) :
    (onBPutInsert tagC s pid tag).swap =
      onAPutInsert (fun b a => tagC a b) s.swap pid tag := by
  simp only [onBPutInsert, onAPutInsert, State.swap, update_swap]
  rfl

theorem Tracked.sendB (tracked : Tracked tagC s) (pid : Fin n) (tag : TagB) :
    Tracked tagC (onBPutSend s pid tag) := by
  have swapped := (tracked.swap.sendA pid tag).swap
  rwa [← onBPutSend_swap, State.swap_swap] at swapped

theorem Tracked.insertB [DecidableEq TagB] (tracked : Tracked tagC s) (pid : Fin n)
    (tag : TagB) : Tracked tagC (onBPutInsert tagC s pid tag) := by
  have swapped := (tracked.swap.insertA pid tag).swap
  rwa [← onBPutInsert_swap, State.swap_swap] at swapped

theorem Tracked.deliver (tracked : Tracked tagC s) {source target : Fin n}
    {message : Msg TagA TagB} {rest : List (Msg TagA TagB)}
    (head : s.chan source target = message :: rest)
    (seeing : ¬ Blind tagC s (.deliver source target)) :
    Tracked tagC { s with
      out := recvMsg tagC (s.proc target) s.out message
      chan := s.chan.setQueue source target rest } := by
  have grows : ∀ pair ∈ s.out, pair ∈ recvMsg tagC (s.proc target) s.out message := by
    intro pair found
    cases message <;> exact mem_joinOne.mpr (.inl found)
  refine ⟨tracked.storedA, tracked.storedB, ?_, ?_⟩
  · intro p a b putA putB
    exact (tracked.onOne p a b putA putB).imp (grows _) id
  · intro p q a b different putA putB
    have keepA : Msg.joinA a ∈ s.chan p q →
        Msg.joinA a ∈ s.chan.setQueue source target rest p q ∨
          (p = source ∧ q = target ∧ message = .joinA a) := by
      intro flying
      by_cases handled : message = .joinA a
      · by_cases queue : p = source ∧ q = target
        · exact .inr ⟨queue.1, queue.2, handled⟩
        · exact .inl (by rwa [Channels.setQueue_other _ _ queue])
      · exact .inl (Channels.mem_setQueue_tail head flying (Ne.symm handled))
    have keepB : Msg.joinB b ∈ s.chan q p →
        Msg.joinB b ∈ s.chan.setQueue source target rest q p ∨
          (q = source ∧ p = target ∧ message = .joinB b) := by
      intro flying
      by_cases handled : message = .joinB b
      · by_cases queue : q = source ∧ p = target
        · exact .inr ⟨queue.1, queue.2, handled⟩
        · exact .inl (by rwa [Channels.setQueue_other _ _ queue])
      · exact .inl (Channels.mem_setQueue_tail head flying (Ne.symm handled))
    by_cases found : tagC a b ∈ s.out
    · exact .inl (grows _ found)
    rcases tracked.onTwo p q a b different putA putB with already | flying | flying
    · exact absurd already found
    · rcases keepA flying with still | ⟨rfl, rfl, rfl⟩
      · exact .inr (.inl still)
      · rcases tracked.storedB q b putB with sent | stored
        · -- not blind: the message of the other callback is still in flight
          have other : Msg.joinB b ∈ s.chan q p := by
            by_contra gone
            exact seeing (by
              simp only [Blind, head]
              exact ⟨b, sent, gone, found⟩)
          rcases keepB other with still | ⟨rfl, _, _⟩
          · exact .inr (.inr still)
          · exact absurd rfl different
        · exact .inl (mem_joinOne.mpr (.inr ⟨b, stored, rfl⟩))
    · rcases keepB flying with still | ⟨rfl, rfl, rfl⟩
      · exact .inr (.inr still)
      · rcases tracked.storedA p a putA with sent | stored
        · have other : Msg.joinA a ∈ s.chan p q := by
            by_contra gone
            exact seeing (by
              simp only [Blind, head]
              exact ⟨a, sent, gone, found⟩)
          rcases keepA other with still | ⟨rfl, _, _⟩
          · exact .inr (.inl still)
          · exact absurd rfl different
        · exact .inl (mem_joinOne.mpr (.inr ⟨a, stored, rfl⟩))

variable [DecidableEq TagA] [DecidableEq TagB]

theorem Tracked.step {action : Action n TagA TagB} {next : State n TagA TagB TagC}
    (tracked : Tracked tagC s) (seeing : ¬ Blind tagC s action)
    (stepped : step tagC s action = some next) : Tracked tagC next := by
  cases action with
  | sendA pid tag =>
      cases stepped
      exact tracked.sendA pid tag
  | insertA pid tag =>
      simp only [Join.step, Option.ite_none_right_eq_some, Option.some.injEq] at stepped
      exact stepped.2 ▸ tracked.insertA pid tag
  | sendB pid tag =>
      cases stepped
      exact tracked.sendB pid tag
  | insertB pid tag =>
      simp only [Join.step, Option.ite_none_right_eq_some, Option.some.injEq] at stepped
      exact stepped.2 ▸ tracked.insertB pid tag
  | deliver source target =>
      simp only [Join.step] at stepped
      split at stepped
      · cases stepped
      · rename_i head
        cases stepped
        exact tracked.deliver head seeing

/-- In every run without a blind step, all pairs of the tags which were put
are in the output collection as soon as the graph is quiescent. -/
theorem complete_of_no_blind_step
    (reached : Reached (system tagC n) (fun s action => ¬ Blind tagC s action) s)
    (quiescent : Quiescent s) : Complete tagC s := by
  have tracked : Tracked tagC s := by
    refine Reached.invariant (Tracked tagC) ?_ ?_ reached
    · rintro _ rfl
      exact tracked_start
    · intro before action next _ tracked seeing stepped
      exact tracked.step seeing stepped
  rintro ⟨p, a⟩ putA ⟨q, b⟩ putB
  obtain ⟨returned, delivered⟩ := quiescent
  by_cases same : p = q
  · subst same
    simpa [returned p] using tracked.onOne p a b putA putB
  · simpa [delivered p q, delivered q p] using tracked.onTwo p q a b same putA putB

end Completeness

instance (s : State n TagA TagB TagC) [DecidableEq TagA] [DecidableEq TagB] :
    Decidable (Quiescent s) := by
  unfold Quiescent
  infer_instance

instance [DecidableEq TagC] (tagC : TagA → TagB → TagC) (s : State n TagA TagB TagC) :
    Decidable (Complete tagC s) := by
  unfold Complete
  infer_instance

/-- Process 0 puts 3 into the first collection and has returned before process
1 puts 4 into the second one. -/
def oneAfterTheOther : List (Action 2 Nat Nat) :=
  [.sendA 0 3, .insertA 0 3, .deliver 0 1, .sendB 1 4, .insertB 1 4, .deliver 1 0]

theorem complete_oneAfterTheOther :
    ∃ s : State 2 Nat Nat (Nat × Nat),
      (system Prod.mk 2).run (fun s action => ¬ Blind Prod.mk s action)
        (start 2 Nat Nat (Nat × Nat)) oneAfterTheOther = some s ∧
      Quiescent s ∧ (3, 4) ∈ s.out ∧ Complete Prod.mk s := by
  refine ⟨_, rfl, by decide, by decide, ?_⟩
  exact complete_of_no_blind_step
    (Reached.run (.initial rfl) oneAfterTheOther rfl) (by decide)

/-- Both processes broadcast, then handle the other's message, and only then
store their own tags: the pair is never put. -/
theorem lost_pair :
    ∃ s : State 2 Nat Nat (Nat × Nat),
      Reachable (system Prod.mk 2) s ∧ Quiescent s ∧
        (0, 3) ∈ s.putA ∧ (1, 4) ∈ s.putB ∧ s.out = [] ∧ ¬ Complete Prod.mk s := by
  refine ⟨_, Reached.run (.initial rfl)
    [.sendA 0 3, .sendB 1 4, .deliver 0 1, .deliver 1 0, .insertA 0 3, .insertB 1 4] rfl,
    ?_, ?_, ?_, ?_, ?_⟩ <;> decide

end CnC.Join
