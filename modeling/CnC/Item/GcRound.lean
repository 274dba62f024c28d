import CnC.Item.Operations
import CnC.Library.Barrier

/-!
# The final round of the garbage collection

At the end, every process calls `send_getcounts` with `enter_safe`: what is left
of the collected get-counts goes to the owners, and an empty message to the
processes for which nothing is left.  A service task then waits for these
messages of all others, sends its last erase list and waits for theirs.

The round is a two-phase barrier (`Barrier`): the messages with `enter_safe` are
its marks and the tags of the get-counts its data.
-/

namespace CnC.Item

open Network Transition Barrier

universe u

variable {n : Nat} {Tag Item : Type u}

/-- Where a process is in the round: `send_getcounts` was not yet called, or
`wait_for_gc_to_complete` has still to pop so many tokens of a queue. -/
inductive GcWait where
  | outside
  | counting (left : Nat)
  | gathering (left : Nat)
  deriving DecidableEq

/-- What has happened in a run: the parts of `GET_COUNTS` and `ERASE` messages
which each process has handled, the tags which were collected for the owners, and
those which were collected when `send_getcounts` was called.  No step reads it. -/
structure GcLog (n : Nat) (Tag : Type u) where
  handled : Channels (Fin n) (Event Tag)
  collected : Channels (Fin n) Tag
  atCall : Channels (Fin n) Tag

/-- `popped` are the tokens which the service task of a process has popped. -/
structure GcState (n : Nat) (Tag Item : Type u) where
  coll : State n Tag Item
  wait : Fin n → GcWait
  popped : Fin n → List Nat
  log : GcLog n Tag

inductive GcAction (n : Nat) (Tag Item : Type u) where
  | coll (action : Action n Tag Item)
  | sendGetcounts (pid : Fin n)
  | popCounting (pid : Fin n)
  | sendErased (pid : Fin n)
  | popGathering (pid : Fin n)

def Action.enterSafe : Action n Tag Item → Bool
  | .sendGetcounts _ enterSafe => enterSafe
  | .sendErased _ enterSafe => enterSafe
  | _ => false

/-- The assertion of `get_count_collector::collect`: an owner does not collect
get-counts for itself. -/
def Asserted (coll : State n Tag Item) : Action n Tag Item → Prop
  | .collect pid tag => ((coll.proc pid).entry tag).owner ≠ some pid
  | _ => True

instance (coll : State n Tag Item) (action : Action n Tag Item) :
    Decidable (Asserted coll action) :=
  match action with
  | .collect pid tag =>
      inferInstanceAs (Decidable (((coll.proc pid).entry tag).owner ≠ some pid))
  | .get .. | .getFromEnv .. | .put .. | .insert .. | .commit .. | .clear ..
  | .sendGetcounts .. | .sendErased .. | .receive .. => .isTrue trivial

/-- What a process handles next of a queue: a tag of a `GET_COUNTS` message, or
the end of a message with `enter_safe`. -/
def nextEvent : List (Msg n Tag Item) → Option (Event Tag)
  | .getCounts _ (tag :: _) _ :: _ => some (.data tag)
  | .getCounts _ [] true :: _ => some .first
  | .erase [] true :: _ => some .second
  | _ => none

/-- The tags which `collect` moves to the message for the owner. -/
def GcLog.record (log : GcLog n Tag) (coll : State n Tag Item) : Action n Tag Item → GcLog n Tag
  | .receive source target =>
      { log with
        handled := append log.handled source target (nextEvent (coll.chan source target)).toList }
  | .collect pid tag =>
      match ((coll.proc pid).entry tag).owner with
      | some owner =>
          { log with
            collected := append log.collected pid owner
              (List.replicate (-((coll.proc pid).entry tag).getCount).toNat tag) }
      | none => log
  | _ => log

section System

variable [DecidableEq Tag] [DecidableEq Item] (tuner : Tuner n Tag)

def GcState.apply (s : GcState n Tag Item) (pid : Fin n)
    (result : Process n Tag Item × Sent n Tag Item) : GcState n Tag Item :=
  { s with coll := s.coll.apply pid result }

def GcState.setProcess (s : GcState n Tag Item) (pid : Fin n) (process : Process n Tag Item)
    (wait : GcWait) (token : Nat) : GcState n Tag Item :=
  { s.apply pid (process, []) with
    wait := Function.update s.wait pid wait
    popped := Function.update s.popped pid (s.popped pid ++ [token]) }

/-- The steps of the collection which do not belong to the round, and those of
`send_getcounts(true)` and `wait_for_gc_to_complete` on each process. -/
def gcStep (s : GcState n Tag Item) : GcAction n Tag Item → Option (GcState n Tag Item)
  | .coll action =>
      if action.enterSafe = true ∨ ¬ Asserted s.coll action then none
      else (step tuner s.coll action).map fun coll =>
        { s with coll := coll, log := s.log.record s.coll action }
  | .sendGetcounts pid =>
      match s.wait pid with
      | .outside => some { s.apply pid (CnC.Item.sendGetcounts pid (s.coll.proc pid) true) with
          wait := Function.update s.wait pid (.counting (n - 1))
          log := { s.log with
            atCall := Function.update s.log.atCall pid (s.log.collected pid) } }
      | _ => none
  | .popCounting pid =>
      match s.wait pid, (s.coll.proc pid).gCounting with
      | .counting (left + 1), tokens + 1 =>
          some (s.setProcess pid { s.coll.proc pid with gCounting := tokens } (.counting left) 1)
      | _, _ => none
  | .sendErased pid =>
      match s.wait pid with
      | .counting 0 => some {
          s.apply pid (CnC.Item.sendErased tuner pid (s.coll.proc pid) true) with
          wait := Function.update s.wait pid (.gathering (n - 1)) }
      | _ => none
  | .popGathering pid =>
      match s.wait pid, (s.coll.proc pid).gathering with
      | .gathering (left + 1), tokens + 1 =>
          some (s.setProcess pid { s.coll.proc pid with gathering := tokens } (.gathering left) 2)
      | _, _ => none

end System

/-- What a message is to the barrier. -/
def Msg.events : Msg n Tag Item → List (Event Tag)
  | .getCounts _ tags enterSafe => tags.map .data ++ if enterSafe then [.first] else []
  | .erase _ enterSafe => if enterSafe then [.second] else []
  | _ => []

def events (queue : List (Msg n Tag Item)) : List (Event Tag) :=
  queue.flatMap Msg.events

def GcWait.phase : GcWait → Phase
  | .outside => .outside
  | .counting left => .first left
  | .gathering left => .second left

def GcState.view (s : GcState n Tag Item) : Barrier.State (Fin n) Tag where
  phase pid := (s.wait pid).phase
  buffer i j := ((s.coll.proc i).sers j).getD []
  queue i j := events (s.coll.chan i j)
  firsts pid := (s.coll.proc pid).gCounting
  seconds pid := (s.coll.proc pid).gathering
  received := s.log.handled
  collected := s.log.collected
  entered := s.log.atCall
  popped := s.popped

def Sent.events (sent : Sent n Tag Item) (target : Fin n) : List (Event Tag) :=
  CnC.Item.events ((sent.filter fun pair => pair.1 = target).map Prod.snd)

def Sent.Eventless (sent : Sent n Tag Item) : Prop :=
  ∀ target message, (target, message) ∈ sent → message.events = []

structure SameRound (process next : Process n Tag Item) : Prop where
  sers : next.sers = process.sers
  gCounting : next.gCounting = process.gCounting
  gathering : next.gathering = process.gathering

theorem SameRound.refl (process : Process n Tag Item) : SameRound process process :=
  ⟨rfl, rfl, rfl⟩

theorem Sent.eventless_nil : Sent.Eventless ([] : Sent n Tag Item) := by
  intro target message membership
  cases membership

theorem Sent.Eventless.events_eq {sent : Sent n Tag Item} (eventless : Sent.Eventless sent)
    (target : Fin n) : sent.events target = [] := by
  refine List.flatMap_eq_nil_iff.mpr fun message listed => ?_
  obtain ⟨pair, addressed, rfl⟩ := List.mem_map.mp listed
  exact eventless pair.1 pair.2 (List.mem_of_mem_filter addressed)

theorem events_cons (message : Msg n Tag Item) (queue : List (Msg n Tag Item)) :
    events (message :: queue) = message.events ++ events queue :=
  List.flatMap_cons

theorem events_append (queue more : List (Msg n Tag Item)) :
    events (queue ++ more) = events queue ++ events more :=
  List.flatMap_append

theorem events_send (channels : Channels (Fin n) (Msg n Tag Item)) (source : Fin n)
    (sent : Sent n Tag Item) : (fun i j => events (channels.send source sent i j)) =
      extend (fun i j => events (channels i j)) source sent.events := by
  funext i j
  by_cases same : i = source
  · simp only [Channels.send, extend, if_pos same, events_append, Sent.events]
  · simp only [Channels.send, extend, if_neg same]

theorem events_setQueue (channels : Channels (Fin n) (Msg n Tag Item)) (source target : Fin n)
    (queue : List (Msg n Tag Item)) :
    (fun i j => events (channels.setQueue source target queue i j)) =
      Channels.setQueue (fun i j => events (channels i j)) source target (events queue) := by
  funext i j
  by_cases same : i = source ∧ j = target
  · obtain ⟨rfl, rfl⟩ := same
    simp only [Channels.setQueue_same]
  · simp only [Channels.setQueue_other _ _ same]

theorem extend_nil {Pid Msg : Type*} [DecidableEq Pid] (channels : Channels Pid Msg)
    (source : Pid) : extend channels source (fun _ => []) = channels := by
  funext i j
  simp [extend]

theorem events_broadcast (self target : Fin n) (message : Msg n Tag Item) :
    Sent.events (broadcast self message) target =
      if target = self then [] else message.events := by
  unfold Sent.events broadcast
  rw [filter_map_of_nodup (nodup_others self)]
  by_cases same : target = self <;> simp [same, events]

theorem eventless_broadcast {self : Fin n} {message : Msg n Tag Item} (none : message.events = []) :
    Sent.Eventless (broadcast self message) := by
  intro target other membership
  rw [(mem_broadcast.mp membership).2, none]

theorem eventless_putRequest {self : Fin n} (tag : Tag) (producer : Producer n) :
    Sent.Eventless (putRequest self tag producer : Sent n Tag Item) := by
  intro target message membership
  rw [(mem_putRequest membership).2]
  rfl

section Operations

variable [DecidableEq Tag] (tuner : Tuner n Tag) (self : Fin n) (process : Process n Tag Item)

theorem round_get (tag : Tag) : SameRound process (get tuner self process tag).1 ∧
    Sent.Eventless (get tuner self process tag).2 := by
  rcases get_cases tuner self process tag with ⟨_, -, found | ⟨-, found⟩⟩ | ⟨-, found⟩ <;>
    rw [found]
  · exact ⟨.refl _, Sent.eventless_nil⟩
  · exact ⟨⟨rfl, rfl, rfl⟩, Sent.eventless_nil⟩
  · refine ⟨⟨rfl, rfl, rfl⟩, ?_⟩
    dsimp only
    split
    · exact eventless_putRequest tag _
    · exact Sent.eventless_nil

theorem round_getFromEnv (tag : Tag) : SameRound process (getFromEnv self process tag).1 ∧
    Sent.Eventless (getFromEnv self process tag).2 := by
  rcases getFromEnv_cases self process tag with ⟨-, found⟩ | ⟨-, found⟩ <;> rw [found]
  · exact ⟨.refl _, Sent.eventless_nil⟩
  · exact ⟨⟨rfl, rfl, rfl⟩, eventless_putRequest tag .unknown⟩

theorem round_getRequest (tag : Tag) (recpnt : Fin n) :
    SameRound process (getRequest self process tag recpnt).1 ∧
      Sent.Eventless (getRequest self process tag recpnt).2 := by
  rcases getRequest_cases self process tag recpnt with
    ⟨item, -, -, found⟩ | ⟨-, -, found⟩ | ⟨-, found⟩ <;> rw [found]
  · refine ⟨.refl _, ?_⟩
    intro target message membership
    cases List.mem_singleton.mp membership
    rfl
  · exact ⟨.refl _, Sent.eventless_nil⟩
  · exact ⟨⟨rfl, rfl, rfl⟩, Sent.eventless_nil⟩

theorem round_putOrDelete (tag : Tag) (item : Item) (owner : Fin n) :
    SameRound process (putOrDelete tuner self process tag item owner).1 ∧
      Sent.Eventless (putOrDelete tuner self process tag item owner).2.1 := by
  rcases putOrDelete_cases tuner self process tag item owner with
    ⟨-, -, found⟩ | ⟨-, found⟩ | ⟨-, -, entry, -, -, -, -, -, found⟩ <;> rw [found]
  · exact ⟨.refl _, Sent.eventless_nil⟩
  · exact ⟨.refl _, Sent.eventless_nil⟩
  · refine ⟨⟨rfl, rfl, rfl⟩, ?_⟩
    intro target message membership
    dsimp only at membership
    split at membership
    · obtain ⟨-, -, rfl⟩ := mem_deliver.mp membership
      rfl
    · cases membership

omit [DecidableEq Tag] in
theorem round_sendErased : SameRound process (sendErased tuner self process false).1 ∧
    Sent.Eventless (sendErased tuner self process false).2 := by
  rcases sendErased_cases tuner self process false with found | found <;> rw [found]
  · exact ⟨.refl _, Sent.eventless_nil⟩
  · exact ⟨⟨rfl, rfl, rfl⟩, eventless_broadcast rfl⟩

omit [DecidableEq Tag] in
theorem round_addErased (tag : Tag) (send : Bool) :
    SameRound process (addErased tuner self process tag send).1 ∧
      Sent.Eventless (addErased tuner self process tag send).2 := by
  rcases addErased_cases tuner self process tag send with ⟨-, found⟩ | found | found <;>
    rw [found]
  · exact ⟨.refl _, Sent.eventless_nil⟩
  · exact ⟨⟨rfl, rfl, rfl⟩, Sent.eventless_nil⟩
  · exact ⟨⟨rfl, rfl, rfl⟩, eventless_broadcast rfl⟩

variable {tuner self process}

theorem round_decrementRefCount {tag : Tag} {send : Bool}
    {result : Process n Tag Item × Sent n Tag Item}
    (decremented : decrementRefCount tuner self process tag send = some result) :
    SameRound process result.1 ∧ Sent.Eventless result.2 := by
  obtain ⟨entry, -, -, -, -, -, ⟨-, rfl⟩ | ⟨-, rfl⟩⟩ := decrementRefCount_cases decremented
  · obtain ⟨same, eventless⟩ := round_addErased tuner self (process.setEntry tag none) tag send
    exact ⟨⟨same.sers, same.gCounting, same.gathering⟩, eventless⟩
  · exact ⟨⟨rfl, rfl, rfl⟩, Sent.eventless_nil⟩

omit [DecidableEq Tag] in
/-- The messages of `send_getcounts` hold what was collected, and a mark for every
other process if `enter_safe` is set. -/
theorem events_sendGetcounts (own : process.sers self = none) (enterSafe : Bool) (target : Fin n) :
    Sent.events (sendGetcounts self process enterSafe).2 target =
      ((process.sers target).getD []).map .data ++
        if enterSafe then toOthers self .first target else [] := by
  let message : Fin n → Option (Msg n Tag Item) := fun receiver =>
    (process.sers receiver).elim
      (if enterSafe ∧ receiver ≠ self then some (.getCounts self [] enterSafe) else none)
      fun tags => some (.getCounts self tags enterSafe)
  have asMessages : (sendGetcounts self process enterSafe).2 =
      (List.finRange n).filterMap fun receiver => (message receiver).map (receiver, ·) := by
    refine congrArg (List.filterMap · (List.finRange n)) (funext fun receiver => ?_)
    dsimp only [message]
    cases process.sers receiver with
    | some tags => rfl
    | none => by_cases marks : enterSafe = true ∧ receiver ≠ self <;> simp [marks]
  unfold Sent.events
  rw [asMessages, filter_filterMap_of_nodup (List.nodup_finRange n), if_pos (List.mem_finRange _)]
  dsimp only [message]
  cases collected : process.sers target with
  | some tags =>
      have other : target ≠ self := by
        rintro rfl
        simp [own] at collected
      simp [events, Msg.events, toOthers, other]
  | none =>
      by_cases same : target = self <;> cases enterSafe <;>
        simp [events, Msg.events, toOthers, same]

end Operations

section Simulation

variable {s next : GcState n Tag Item} {pid : Fin n}

theorem view_apply (s : GcState n Tag Item) (pid : Fin n)
    (result : Process n Tag Item × Sent n Tag Item) :
    (s.apply pid result).view = { s.view with
      buffer := Function.update s.view.buffer pid fun target => (result.1.sers target).getD []
      queue := extend s.view.queue pid result.2.events
      firsts := Function.update s.view.firsts pid result.1.gCounting
      seconds := Function.update s.view.seconds pid result.1.gathering } := by
  refine Barrier.State.ext rfl ?_ ?_ ?_ ?_ rfl rfl rfl rfl
  · exact Function.comp_update (fun process target => (process.sers target).getD []) s.coll.proc
      pid result.1
  · exact events_send s.coll.chan pid result.2
  · exact Function.comp_update Process.gCounting s.coll.proc pid result.1
  · exact Function.comp_update Process.gathering s.coll.proc pid result.1

theorem view_apply_same (s : GcState n Tag Item) {result : Process n Tag Item × Sent n Tag Item}
    (same : SameRound (s.coll.proc pid) result.1) (eventless : Sent.Eventless result.2) :
    (s.apply pid result).view = s.view := by
  have noEvents : result.2.events = fun _ => [] := funext eventless.events_eq
  rw [view_apply, noEvents, extend_nil, same.sers, same.gCounting, same.gathering]
  refine Barrier.State.ext rfl ?_ rfl ?_ ?_ rfl rfl rfl rfl
  · exact Function.update_eq_self pid s.view.buffer
  · exact Function.update_eq_self pid s.view.firsts
  · exact Function.update_eq_self pid s.view.seconds

/-- Sending the collected get-counts is a flush, with marks if `enter_safe` is
set. -/
theorem view_sendGetcounts (s : GcState n Tag Item) (pid : Fin n)
    (own : (s.coll.proc pid).sers pid = none) (enterSafe : Bool) (numgc : Nat) :
    (s.apply pid ({ (sendGetcounts pid (s.coll.proc pid) enterSafe).1 with numgc := numgc },
      (sendGetcounts pid (s.coll.proc pid) enterSafe).2)).view =
      if enterSafe then (s.view.flush pid).mark pid .first else s.view.flush pid := by
  have buffers : (Function.update s.view.buffer pid fun _ => []) = (s.view.flush pid).buffer := by
    funext i
    by_cases same : i = pid
    · subst same
      simp [State.flush]
    · simp [State.flush, same]
  have queues : extend s.view.queue pid
      (Sent.events (sendGetcounts pid (s.coll.proc pid) enterSafe).2) =
      extend (s.view.flush pid).queue pid
        (fun target => if enterSafe then toOthers pid .first target else []) := by
    funext i j
    by_cases same : i = pid
    · subst same
      simp [State.flush, extend, events_sendGetcounts own, GcState.view]
    · simp [State.flush, extend, same]
  rw [view_apply, queues]
  cases enterSafe with
  | false =>
      refine Barrier.State.ext rfl buffers ?_ ?_ ?_ rfl rfl rfl rfl
      · exact extend_nil _ pid
      · exact Function.update_eq_self pid s.view.firsts
      · exact Function.update_eq_self pid s.view.seconds
  | true =>
      refine Barrier.State.ext rfl buffers rfl ?_ ?_ rfl rfl rfl rfl
      · exact Function.update_eq_self pid s.view.firsts
      · exact Function.update_eq_self pid s.view.seconds

theorem view_setQueue (s : GcState n Tag Item) (source target : Fin n)
    (queue : List (Msg n Tag Item)) :
    ({ s with coll := s.coll.setQueue source target queue } : GcState n Tag Item).view =
      { s.view with queue := s.view.queue.setQueue source target (events queue) } :=
  Barrier.State.ext rfl rfl (events_setQueue s.coll.chan source target queue)
    rfl rfl rfl rfl rfl rfl

theorem view_setQueue_same (s : GcState n Tag Item) {source target : Fin n}
    {queue : List (Msg n Tag Item)} (same : events queue = events (s.coll.chan source target)) :
    ({ s with coll := s.coll.setQueue source target queue } : GcState n Tag Item).view =
      s.view := by
  rw [view_setQueue, same]
  exact Barrier.State.ext rfl rfl (Channels.setQueue_self s.view.queue source target)
    rfl rfl rfl rfl rfl rfl

theorem view_handle (s : GcState n Tag Item) {source target : Fin n} {event : Event Tag}
    {queue : List (Msg n Tag Item)} {process : Process n Tag Item} {sent : Sent n Tag Item}
    (eventless : Sent.Eventless sent) (handled : nextEvent (s.coll.chan source target) = some event)
    (sers : process.sers = (s.coll.proc target).sers)
    (gCounting : process.gCounting =
      (s.coll.proc target).gCounting + if event.isFirst then 1 else 0)
    (gathering : process.gathering =
      (s.coll.proc target).gathering + if event.isSecond then 1 else 0) :
    ({ s with
      coll := (s.coll.setQueue source target queue).apply target (process, sent)
      log := s.log.record s.coll (.receive source target) } : GcState n Tag Item).view =
      s.view.receive source target event (events queue) := by
  have applied := view_apply { s with coll := s.coll.setQueue source target queue } target
    (process, sent)
  have noEvents : sent.events = fun _ => [] := funext eventless.events_eq
  rw [view_setQueue, noEvents, extend_nil, sers, gCounting, gathering] at applied
  have recorded : s.log.record s.coll (.receive source target) = { s.log with
      handled := append s.log.handled source target [event] } := by
    simp only [GcLog.record, handled, Option.toList]
  rw [recorded]
  refine Barrier.State.ext rfl ?_ ?_ ?_ ?_ rfl rfl rfl rfl
  · exact (congrArg Barrier.State.buffer applied).trans
      (Function.update_eq_self target s.view.buffer)
  · exact (congrArg Barrier.State.queue applied).trans rfl
  · refine (congrArg Barrier.State.firsts applied).trans ?_
    cases isMark : event.isFirst with
    | false => simp [State.receive, isMark, GcState.view]
    | true => simp [State.receive, isMark, GcState.view]
  · refine (congrArg Barrier.State.seconds applied).trans ?_
    cases isMark : event.isSecond with
    | false => simp [State.receive, isMark, GcState.view]
    | true => simp [State.receive, isMark, GcState.view]

/-- The state is one of the barrier, and no get-counts are collected by an owner. -/
structure Simulated (s : GcState n Tag Item) : Prop where
  own : ∀ pid, (s.coll.proc pid).sers pid = none
  reached : Reachable Barrier.system s.view

theorem sers_apply (coll : State n Tag Item) (pid : Fin n)
    (result : Process n Tag Item × Sent n Tag Item)
    (same : result.1.sers = (coll.proc pid).sers) (other : Fin n) :
    ((coll.apply pid result).proc other).sers = (coll.proc other).sers := by
  by_cases isPid : other = pid
  · subst isPid
    simpa [State.apply] using same
  · simp [State.apply, isPid]

theorem Simulated.aside (simulated : Simulated s)
    {result : Process n Tag Item × Sent n Tag Item}
    (round : SameRound (s.coll.proc pid) result.1 ∧ Sent.Eventless result.2)
    (sameProc : next.coll.proc = (s.apply pid result).coll.proc)
    (sameView : next.view = (s.apply pid result).view) : Simulated next := by
  refine ⟨fun other => ?_, ?_⟩
  · rw [sameProc]
    exact (congrFun (sers_apply s.coll pid result round.1.sers other) other).trans
      (simulated.own other)
  · rw [sameView, view_apply_same s round.1 round.2]
    exact simulated.reached

theorem Simulated.skip (simulated : Simulated s) {source target : Fin n}
    {queue : List (Msg n Tag Item)} (same : events queue = events (s.coll.chan source target)) :
    Simulated { s with coll := s.coll.setQueue source target queue } where
  own := simulated.own
  reached := by
    rw [view_setQueue_same s same]
    exact simulated.reached

theorem Simulated.handle (simulated : Simulated s) {source target : Fin n} {event : Event Tag}
    (queue : List (Msg n Tag Item)) {process : Process n Tag Item} {sent : Sent n Tag Item}
    (eventless : Sent.Eventless sent) (handled : nextEvent (s.coll.chan source target) = some event)
    (front : events (s.coll.chan source target) = event :: events queue)
    (sers : process.sers = (s.coll.proc target).sers)
    (gCounting : process.gCounting =
      (s.coll.proc target).gCounting + if event.isFirst then 1 else 0)
    (gathering : process.gathering =
      (s.coll.proc target).gathering + if event.isSecond then 1 else 0) :
    Simulated { s with
      coll := (s.coll.setQueue source target queue).apply target (process, sent)
      log := s.log.record s.coll (.receive source target) } where
  own other := by
    have same := sers_apply (s.coll.setQueue source target queue) target (process, sent) sers other
    exact (congrFun same other).trans (simulated.own other)
  reached := by
    rw [view_handle s eventless handled sers gCounting gathering]
    have head : s.view.queue source target = event :: events queue := front
    have received : Barrier.system.step s.view (.receive source target) =
        some (s.view.receive source target event (events queue)) := by
      simp only [Barrier.system, Barrier.step, head]
    exact simulated.reached.step trivial received

theorem record_other (s : GcState n Tag Item) {source target : Fin n}
    (none : nextEvent (s.coll.chan source target) = none) :
    s.log.record s.coll (.receive source target) = s.log := by
  simp only [GcLog.record, none, Option.toList, append_nil]

theorem Simulated.message (simulated : Simulated s) {source target : Fin n}
    {message : Msg n Tag Item} {rest : List (Msg n Tag Item)} {coll : State n Tag Item}
    {result : Process n Tag Item × Sent n Tag Item}
    (head : s.coll.chan source target = message :: rest) (noEvents : message.events = [])
    (none : nextEvent (message :: rest) = none)
    (round : SameRound (s.coll.proc target) result.1 ∧ Sent.Eventless result.2)
    (sameProc : coll.proc = ((s.coll.setQueue source target rest).apply target result).proc)
    (sameChan : coll.chan = ((s.coll.setQueue source target rest).apply target result).chan) :
    Simulated { s with coll := coll, log := s.log.record s.coll (.receive source target) } := by
  have skipped : Simulated { s with coll := s.coll.setQueue source target rest } := by
    apply simulated.skip
    rw [head, events_cons, noEvents, List.nil_append]
  rw [record_other s (head ▸ none)]
  refine skipped.aside round sameProc ?_
  simp only [GcState.view, GcState.apply, sameProc, sameChan]

theorem Simulated.flush (simulated : Simulated s) (pid : Fin n) (numgc : Nat) :
    Simulated (s.apply pid
      ({ (CnC.Item.sendGetcounts pid (s.coll.proc pid) false).1 with numgc := numgc },
        (CnC.Item.sendGetcounts pid (s.coll.proc pid) false).2)) where
  own other := by
    by_cases same : other = pid
    · subst same
      simp [GcState.apply, State.apply, CnC.Item.sendGetcounts]
    · simpa [GcState.apply, State.apply, same] using simulated.own other
  reached := by
    rw [view_sendGetcounts s pid (simulated.own pid) false numgc]
    have flushed : Barrier.system.step s.view (.flush pid) = some (s.view.flush pid) := rfl
    exact simulated.reached.step trivial flushed

theorem Simulated.enter (simulated : Simulated s) (pid : Fin n) (outside : s.wait pid = .outside) :
    Simulated { s.apply pid (CnC.Item.sendGetcounts pid (s.coll.proc pid) true) with
      wait := Function.update s.wait pid (.counting (n - 1))
      log := { s.log with
        atCall := Function.update s.log.atCall pid (s.log.collected pid) } } where
  own other := by
    by_cases same : other = pid
    · subst same
      simp [GcState.apply, State.apply, CnC.Item.sendGetcounts]
    · simpa [GcState.apply, State.apply, same] using simulated.own other
  reached := by
    have marked := view_sendGetcounts s pid (simulated.own pid) true (s.coll.proc pid).numgc
    have phases : GcWait.phase ∘ Function.update s.wait pid (.counting (n - 1)) =
        Function.update s.view.phase pid (.first (Fintype.card (Fin n) - 1)) := by
      rw [Function.comp_update, Fintype.card_fin]
      rfl
    have isOutside : s.view.phase pid = .outside := congrArg GcWait.phase outside
    have stepped : Barrier.system.step s.view (.enter pid) = some (s.view.enter pid) := by
      simp only [Barrier.system, Barrier.step, isOutside]
    have isView : s.view.enter pid = GcState.view { s.apply pid
        (CnC.Item.sendGetcounts pid (s.coll.proc pid) true) with
          wait := Function.update s.wait pid (.counting (n - 1))
          log := { s.log with
            atCall := Function.update s.log.atCall pid (s.log.collected pid) } } :=
      Barrier.State.ext phases.symm (congrArg Barrier.State.buffer marked).symm
        (congrArg Barrier.State.queue marked).symm (congrArg Barrier.State.firsts marked).symm
        (congrArg Barrier.State.seconds marked).symm rfl rfl rfl rfl
    exact isView ▸ simulated.reached.step trivial stepped

theorem Simulated.pop (simulated : Simulated s) {process : Process n Tag Item} {wait : GcWait}
    {token : Nat} (sers : process.sers = (s.coll.proc pid).sers)
    (stepped : ∃ action, Barrier.step s.view action =
      some (s.view.pop pid wait.phase process.gCounting process.gathering token)) :
    Simulated (s.setProcess pid process wait token) where
  own other := (congrFun (sers_apply s.coll pid (process, []) sers other) other).trans
    (simulated.own other)
  reached := by
    obtain ⟨action, popped⟩ := stepped
    have applied := view_apply s pid (process, [])
    rw [sers] at applied
    have isView : s.view.pop pid wait.phase process.gCounting process.gathering token =
        (s.setProcess pid process wait token).view := by
      refine Barrier.State.ext (Function.comp_update GcWait.phase s.wait pid wait).symm ?_ ?_
        (congrArg Barrier.State.firsts applied).symm (congrArg Barrier.State.seconds applied).symm
        rfl rfl rfl rfl
      · exact ((congrArg Barrier.State.buffer applied).trans
          (Function.update_eq_self pid s.view.buffer)).symm
      · refine ((congrArg Barrier.State.queue applied).trans ?_).symm
        exact extend_nil s.view.queue pid
    exact isView ▸ simulated.reached.step trivial popped

theorem Simulated.release (simulated : Simulated s) (tuner : Tuner n Tag) (pid : Fin n)
    (counted : s.wait pid = .counting 0) :
    Simulated { s.apply pid (CnC.Item.sendErased tuner pid (s.coll.proc pid) true) with
      wait := Function.update s.wait pid (.gathering (n - 1)) } := by
  have sent : CnC.Item.sendErased tuner pid (s.coll.proc pid) true =
      ({ s.coll.proc pid with erasedSer := none },
        broadcast pid (.erase ((s.coll.proc pid).erasedSer.getD []) true)) := by
    simp [CnC.Item.sendErased]
  rw [sent]
  have applied := view_apply s pid ({ s.coll.proc pid with erasedSer := none },
    broadcast pid (.erase ((s.coll.proc pid).erasedSer.getD []) true))
  have marks : Sent.events (broadcast pid
      (.erase ((s.coll.proc pid).erasedSer.getD []) true : Msg n Tag Item)) =
      toOthers pid .second := by
    funext target
    rw [events_broadcast]
    rfl
  rw [marks] at applied
  have phases : GcWait.phase ∘ Function.update s.wait pid (.gathering (n - 1)) =
      Function.update s.view.phase pid (.second (Fintype.card (Fin n) - 1)) := by
    rw [Function.comp_update, Fintype.card_fin]
    rfl
  have isCounted : s.view.phase pid = .first 0 := congrArg GcWait.phase counted
  have stepped : Barrier.system.step s.view (.release pid) = some (s.view.release pid) := by
    simp only [Barrier.system, Barrier.step, isCounted]
  refine ⟨fun other => ?_, ?_⟩
  · exact (congrFun (sers_apply s.coll pid ({ s.coll.proc pid with erasedSer := none },
      broadcast pid (.erase ((s.coll.proc pid).erasedSer.getD []) true)) rfl other) other).trans
      (simulated.own other)
  · have isView : s.view.release pid = GcState.view { s.apply pid
        ({ s.coll.proc pid with erasedSer := none },
          broadcast pid (.erase ((s.coll.proc pid).erasedSer.getD []) true)) with
          wait := Function.update s.wait pid (.gathering (n - 1)) } := by
      refine Barrier.State.ext phases.symm ?_ (congrArg Barrier.State.queue applied).symm ?_ ?_
        rfl rfl rfl rfl
      · exact ((congrArg Barrier.State.buffer applied).trans
          (Function.update_eq_self pid s.view.buffer)).symm
      · exact ((congrArg Barrier.State.firsts applied).trans
          (Function.update_eq_self pid s.view.firsts)).symm
      · exact ((congrArg Barrier.State.seconds applied).trans
          (Function.update_eq_self pid s.view.seconds)).symm
    exact isView ▸ simulated.reached.step trivial stepped

variable [DecidableEq Tag] {tuner : Tuner n Tag}

theorem view_collect (s : GcState n Tag Item) {tag : Tag} {owner : Fin n}
    (owned : ((s.coll.proc pid).entry tag).owner = some owner) (numgc : Nat) :
    ({ s.apply pid ({ getCountCollect (s.coll.proc pid) tag owner with numgc := numgc }, []) with
      log := s.log.record s.coll (.collect pid tag) } : GcState n Tag Item).view =
      s.view.collect pid owner
        (List.replicate (-((s.coll.proc pid).entry tag).getCount).toNat tag) := by
  have recorded : s.log.record s.coll (.collect pid tag) = { s.log with
      collected := append s.log.collected pid owner
        (List.replicate (-((s.coll.proc pid).entry tag).getCount).toNat tag) } := by
    simp only [GcLog.record, owned]
  rw [recorded]
  refine Barrier.State.ext rfl ?_ ?_ ?_ ?_ rfl rfl rfl rfl
  · funext i j
    refine Eq.trans ?_ (append_apply s.view.buffer _ i j).symm
    by_cases same : i = pid
    · subst same
      by_cases toOwner : j = owner <;>
        simp [GcState.view, GcState.apply, State.apply, getCountCollect, toOwner]
    · simp [GcState.view, GcState.apply, State.apply, same]
  · simp [GcState.view, GcState.apply, State.apply, State.collect]
  · exact (Function.comp_update Process.gCounting s.coll.proc pid _).trans
      (Function.update_eq_self pid s.view.firsts)
  · exact (Function.comp_update Process.gathering s.coll.proc pid _).trans
      (Function.update_eq_self pid s.view.seconds)

theorem Simulated.recvMsg (simulated : Simulated s) {source target : Fin n}
    {message : Msg n Tag Item} {rest : List (Msg n Tag Item)} {coll : State n Tag Item}
    (head : s.coll.chan source target = message :: rest)
    (received : s.coll.recvMsg tuner source target rest message = some coll) :
    Simulated { s with coll := coll, log := s.log.record s.coll (.receive source target) } := by
  have front : events (s.coll.chan source target) = message.events ++ events rest := by
    rw [head, events_cons]
  cases message with
  | request tag recpnt =>
      cases received
      exact simulated.message head rfl rfl (round_getRequest target _ tag recpnt) rfl rfl
  | deliver owner tag item =>
      cases received
      exact simulated.message head rfl rfl (round_putOrDelete tuner target _ tag item owner) rfl rfl
  | deliverToOwn tag item =>
      cases received
      exact simulated.message head rfl rfl
        (round_putOrDelete tuner target _ tag item target) rfl rfl
  | getCounts pid tags enterSafe =>
      cases tags with
      | nil =>
          cases received
          cases enterSafe with
          | true =>
              exact simulated.handle rest Sent.eventless_nil (by rw [head]; rfl) front rfl rfl rfl
          | false =>
              exact simulated.message head rfl rfl (round_sendErased tuner target _) rfl rfl
      | cons tag tags =>
          simp only [State.recvMsg, State.decrementAt] at received
          split at received
          · cases received
          · rename_i result decremented
            cases received
            obtain ⟨round, eventless⟩ := round_decrementRefCount decremented
            have handled := simulated.handle (.getCounts pid tags enterSafe :: rest)
              eventless (by rw [head]; rfl) front round.sers round.gCounting round.gathering
            exact ⟨handled.own, handled.reached⟩
  | erase tags enterSafe =>
      cases tags with
      | nil =>
          cases received
          cases enterSafe with
          | true =>
              exact simulated.handle rest Sent.eventless_nil (by rw [head]; rfl) front rfl rfl rfl
          | false =>
              exact simulated.message head rfl rfl ⟨.refl _, Sent.eventless_nil⟩ rfl rfl
      | cons tag tags =>
          cases received
          have skipped : Simulated { s with
              coll := s.coll.setQueue source target (.erase tags enterSafe :: rest) } :=
            simulated.skip (by rw [front, events_cons]; rfl)
          have aside : Simulated (GcState.apply { s with
              coll := s.coll.setQueue source target (.erase tags enterSafe :: rest) } target
                (eraseAlien (s.coll.proc target) tag, [])) :=
            skipped.aside ⟨⟨rfl, rfl, rfl⟩, Sent.eventless_nil⟩ rfl rfl
          rw [record_other s (by rw [head]; rfl)]
          exact ⟨aside.own, aside.reached⟩

theorem Simulated.commit (simulated : Simulated s) {tag : Tag} {process : Process n Tag Item}
    {history : History n Tag Item} {coll : State n Tag Item}
    (same : SameRound (s.coll.proc pid) process)
    (decremented : { s.coll with history := history }.decrementAt tuner pid process tag true =
      some coll) : Simulated { s with coll := coll } := by
  simp only [State.decrementAt] at decremented
  split at decremented
  · cases decremented
  · rename_i result found
    cases decremented
    obtain ⟨round, eventless⟩ := round_decrementRefCount found
    have fromStart : SameRound (s.coll.proc pid) result.1 :=
      ⟨round.sers.trans same.sers, round.gCounting.trans same.gCounting,
        round.gathering.trans same.gathering⟩
    exact simulated.aside ⟨fromStart, eventless⟩ rfl rfl

theorem Simulated.collect (simulated : Simulated s) {tag : Tag}
    {result : Process n Tag Item × Sent n Tag Item}
    (asserted : ((s.coll.proc pid).entry tag).owner ≠ some pid)
    (collects : CnC.Item.collect tuner pid (s.coll.proc pid) tag = some result) :
    Simulated { s with
      coll := s.coll.apply pid result, log := s.log.record s.coll (.collect pid tag) } := by
  obtain ⟨owner, owned, -, -, -, numgc, isResult⟩ := collect_cases collects
  have other : pid ≠ owner := by
    rintro rfl
    exact asserted owned
  have collected : ∀ numgc, Simulated { s.apply pid
      ({ getCountCollect (s.coll.proc pid) tag owner with numgc := numgc }, []) with
        log := s.log.record s.coll (.collect pid tag) } := by
    intro numgc
    refine ⟨fun q => ?_, ?_⟩
    · by_cases same : q = pid
      · subst same
        simpa [GcState.apply, State.apply, getCountCollect, other] using simulated.own q
      · simpa [GcState.apply, State.apply, same] using simulated.own q
    · rw [view_collect s owned numgc]
      have stepped : Barrier.system.step s.view (.collect pid owner
          (List.replicate (-((s.coll.proc pid).entry tag).getCount).toNat tag)) =
          some (s.view.collect pid owner
            (List.replicate (-((s.coll.proc pid).entry tag).getCount).toNat tag)) := by
        simp [Barrier.system, Barrier.step, other]
      exact simulated.reached.step trivial stepped
  rcases isResult with rfl | rfl
  · exact collected numgc
  · have flushed := (collected (s.coll.proc pid).numgc).flush pid numgc
    simp only [GcState.apply, State.apply, Function.update_self, Function.update_idem,
      Channels.send_nil] at flushed ⊢
    exact flushed

variable [DecidableEq Item]

/-- Every step of the collection outside of the round is none or some steps of the
barrier. -/
theorem Simulated.coll (simulated : Simulated s) {action : Action n Tag Item}
    {coll : State n Tag Item} (outside : action.enterSafe = false)
    (asserted : Asserted s.coll action) (stepped : CnC.Item.step tuner s.coll action = some coll) :
    Simulated { s with coll := coll, log := s.log.record s.coll action } := by
  cases action with
  | get pid tag =>
      cases stepped
      exact simulated.aside (round_get tuner pid _ tag) rfl rfl
  | getFromEnv pid tag =>
      cases stepped
      exact simulated.aside (round_getFromEnv pid _ tag) rfl rfl
  | put pid tag item =>
      simp only [CnC.Item.step] at stepped
      split at stepped
      · cases stepped
      · rename_i owner here sent delivered
        cases stepped
        have eventless : Sent.Eventless sent := by
          intro target message membership
          obtain ⟨-, rfl | ⟨rfl, -⟩⟩ := mem_deliverPut delivered membership <;> rfl
        exact simulated.aside ⟨⟨rfl, rfl, rfl⟩, eventless⟩ rfl rfl
  | insert pid tag item owner =>
      simp only [CnC.Item.step, Option.ite_none_right_eq_some, Option.some.injEq] at stepped
      obtain ⟨pending, rfl⟩ := stepped
      obtain ⟨round, eventless⟩ := round_putOrDelete tuner pid { s.coll.proc pid with
        putting := (s.coll.proc pid).putting.erase (tag, item, owner) } tag item owner
      exact simulated.aside ⟨⟨round.sers, round.gCounting, round.gathering⟩, eventless⟩ rfl rfl
  | commit pid tag =>
      simp only [CnC.Item.step, Option.ite_none_right_eq_some] at stepped
      refine simulated.commit ?_ stepped.2
      exact ⟨rfl, rfl, rfl⟩
  | clear pid tag =>
      cases stepped
      exact simulated.aside ⟨⟨rfl, rfl, rfl⟩, Sent.eventless_nil⟩ rfl rfl
  | collect pid tag =>
      simp only [CnC.Item.step] at stepped
      split at stepped
      · cases stepped
      · rename_i collects
        cases stepped
        exact simulated.collect asserted collects
  | sendGetcounts pid enterSafe =>
      cases stepped
      cases outside
      exact simulated.flush pid (s.coll.proc pid).numgc
  | sendErased pid enterSafe =>
      cases stepped
      cases outside
      exact simulated.aside (round_sendErased tuner pid _) rfl rfl
  | receive source target =>
      simp only [CnC.Item.step] at stepped
      split at stepped
      · cases stepped
      · rename_i head
        exact simulated.recvMsg head stepped

theorem Simulated.step (simulated : Simulated s) {action : GcAction n Tag Item}
    (stepped : gcStep tuner s action = some next) : Simulated next := by
  cases action with
  | coll action =>
      simp only [gcStep, Option.ite_none_left_eq_some, Option.map_eq_some_iff] at stepped
      obtain ⟨allowed, coll, taken, rfl⟩ := stepped
      obtain ⟨outside, asserted⟩ := not_or.mp allowed
      exact simulated.coll (Bool.eq_false_iff.mpr outside) (not_not.mp asserted) taken
  | sendGetcounts pid =>
      simp only [gcStep] at stepped
      split at stepped
      · rename_i outside
        cases stepped
        exact simulated.enter pid outside
      · cases stepped
  | popCounting pid =>
      simp only [gcStep] at stepped
      split at stepped
      · rename_i left tokens waits token
        cases stepped
        refine simulated.pop rfl ⟨.popFirst pid, ?_⟩
        have phase : s.view.phase pid = .first (left + 1) := congrArg GcWait.phase waits
        have isToken : s.view.firsts pid = tokens + 1 := token
        simp only [Barrier.step, phase, isToken]
        rfl
      · cases stepped
  | sendErased pid =>
      simp only [gcStep] at stepped
      split at stepped
      · rename_i counted
        cases stepped
        exact simulated.release tuner pid counted
      · cases stepped
  | popGathering pid =>
      simp only [gcStep] at stepped
      split at stepped
      · rename_i left tokens waits token
        cases stepped
        refine simulated.pop rfl ⟨.popSecond pid, ?_⟩
        have phase : s.view.phase pid = .second (left + 1) := congrArg GcWait.phase waits
        have isToken : s.view.seconds pid = tokens + 1 := token
        simp only [Barrier.step, phase, isToken]
        rfl
      · cases stepped

end Simulation

/-- The get-counts from another process which a process has applied. -/
def GcState.applied (s : GcState n Tag Item) (source target : Fin n) : List Tag :=
  values (s.log.handled source target)

end CnC.Item
