import CnC.Library.Network
import CnC.Library.Transition

/-!
# A two-phase barrier on FIFO channels

Every process collects data for the others and sends it from time to time.  To
enter the barrier it sends all that is left and then a first mark to every other
process.  When it has taken one first token for each of them, it is released: it
sends a second mark to every other process and takes one second token for each.

The data which a process collected before it entered stands before its first
mark, so that a released process has received all of it.  What is received, what
was collected and the tokens which were taken are kept in the state; no step
reads them.
-/

namespace Barrier

open Network Transition

universe u v

inductive Event (Data : Type v) where
  | data (value : Data)
  | first
  | second
  deriving DecidableEq

namespace Event

variable {Data : Type v}

def isFirst : Event Data → Bool
  | .first => true
  | _ => false

def isSecond : Event Data → Bool
  | .second => true
  | _ => false

def value? : Event Data → Option Data
  | .data value => some value
  | _ => none

end Event

/-- How many marks of a process has to wait for. -/
inductive Phase where
  | outside
  | first (left : Nat)
  | second (left : Nat)
  deriving DecidableEq

/-- `popped` are the tokens which a process has taken, 1 for a first and 2 for a
second one; `entered` is what it had collected when it entered the barrier. -/
@[ext]
structure State (Pid : Type u) (Data : Type v) where
  phase : Pid → Phase
  buffer : Channels Pid Data
  queue : Channels Pid (Event Data)
  firsts : Pid → Nat
  seconds : Pid → Nat
  received : Channels Pid (Event Data)
  collected : Channels Pid Data
  entered : Channels Pid Data
  popped : Pid → List Nat

inductive Action (Pid : Type u) (Data : Type v) where
  | collect (source target : Pid) (values : List Data)
  | flush (pid : Pid)
  | enter (pid : Pid)
  | receive (source target : Pid)
  | popFirst (pid : Pid)
  | release (pid : Pid)
  | popSecond (pid : Pid)

variable {Pid : Type u} {Data : Type v} [DecidableEq Pid]

/-- Append to all queues of a sender. -/
def extend {Msg : Type v} (channels : Channels Pid Msg) (source : Pid) (more : Pid → List Msg) :
    Channels Pid Msg :=
  fun i j => if i = source then channels i j ++ more j else channels i j

def append {Msg : Type v} (channels : Channels Pid Msg) (source target : Pid) (more : List Msg) :
    Channels Pid Msg :=
  channels.setQueue source target (channels source target ++ more)

def toOthers (self : Pid) (mark : Event Data) (target : Pid) : List (Event Data) :=
  if target = self then [] else [mark]

def State.flush (s : State Pid Data) (pid : Pid) : State Pid Data :=
  { s with
    buffer := fun i => if i = pid then fun _ => [] else s.buffer i
    queue := extend s.queue pid fun target => (s.buffer pid target).map .data }

def State.mark (s : State Pid Data) (pid : Pid) (mark : Event Data) : State Pid Data :=
  { s with queue := extend s.queue pid (toOthers pid mark) }

def State.receive (s : State Pid Data) (source target : Pid) (event : Event Data)
    (rest : List (Event Data)) : State Pid Data :=
  { s with
    queue := s.queue.setQueue source target rest
    received := append s.received source target [event]
    firsts := if event.isFirst then Function.update s.firsts target (s.firsts target + 1)
      else s.firsts
    seconds := if event.isSecond then Function.update s.seconds target (s.seconds target + 1)
      else s.seconds }

def State.collect (s : State Pid Data) (source target : Pid) (values : List Data) :
    State Pid Data :=
  { s with
    buffer := append s.buffer source target values
    collected := append s.collected source target values }

/-- Take a token, which leaves so many of both kinds. -/
def State.pop (s : State Pid Data) (pid : Pid) (phase : Phase) (firsts seconds token : Nat) :
    State Pid Data :=
  { s with
    phase := Function.update s.phase pid phase
    firsts := Function.update s.firsts pid firsts
    seconds := Function.update s.seconds pid seconds
    popped := Function.update s.popped pid (s.popped pid ++ [token]) }

section System

variable [Fintype Pid]

def State.enter (s : State Pid Data) (pid : Pid) : State Pid Data :=
  { (s.flush pid).mark pid .first with
    phase := Function.update s.phase pid (.first (Fintype.card Pid - 1))
    entered := Function.update s.entered pid (s.collected pid) }

def State.release (s : State Pid Data) (pid : Pid) : State Pid Data :=
  { s.mark pid .second with
    phase := Function.update s.phase pid (.second (Fintype.card Pid - 1)) }

def step (s : State Pid Data) : Action Pid Data → Option (State Pid Data)
  | .collect source target values =>
      if source = target then none
      else some (s.collect source target values)
  | .flush pid => some (s.flush pid)
  | .enter pid =>
      match s.phase pid with
      | .outside => some (s.enter pid)
      | _ => none
  | .receive source target =>
      match s.queue source target with
      | [] => none
      | event :: rest => some (s.receive source target event rest)
  | .popFirst pid =>
      match s.phase pid, s.firsts pid with
      | .first (left + 1), tokens + 1 => some (s.pop pid (.first left) tokens (s.seconds pid) 1)
      | _, _ => none
  | .release pid =>
      match s.phase pid with
      | .first 0 => some (s.release pid)
      | _ => none
  | .popSecond pid =>
      match s.phase pid, s.seconds pid with
      | .second (left + 1), tokens + 1 => some (s.pop pid (.second left) (s.firsts pid) tokens 2)
      | _, _ => none

def values (events : List (Event Data)) : List Data :=
  events.filterMap Event.value?

/-- No mark was sent and no token is there; the buffers and queues may hold
data. -/
structure Initial (s : State Pid Data) : Prop where
  phase : ∀ pid, s.phase pid = .outside
  own : ∀ pid, s.buffer pid pid = []
  unmarked : ∀ i j, ∀ event ∈ s.queue i j, event.isFirst = false ∧ event.isSecond = false
  firsts : ∀ pid, s.firsts pid = 0
  seconds : ∀ pid, s.seconds pid = 0
  received : ∀ i j, s.received i j = []
  collected : ∀ i j, s.collected i j = values (s.queue i j) ++ s.buffer i j
  popped : ∀ pid, s.popped pid = []

def system : System (State Pid Data) (Action Pid Data) where
  Initial := Initial
  step := step

end System

def State.sent (s : State Pid Data) : Channels Pid (Event Data) :=
  fun i j => s.received i j ++ s.queue i j

/-- The first marks which a process in a phase has sent to another one. -/
def Phase.firsts : Phase → Nat
  | .outside => 0
  | .first _ => 1
  | .second _ => 1

def Phase.seconds : Phase → Nat
  | .outside => 0
  | .first _ => 0
  | .second _ => 1

theorem Phase.firsts_le (phase : Phase) : phase.firsts ≤ 1 := by
  cases phase <;> simp [Phase.firsts]

theorem Phase.seconds_le (phase : Phase) : phase.seconds ≤ 1 := by
  cases phase <;> simp [Phase.seconds]

/-- The tokens which a process has popped in a phase, out of so many for each
kind. -/
def Phase.Popped (others : Nat) : Phase → List Nat → Prop
  | .outside, popped => popped = []
  | .first left, popped => left ≤ others ∧ popped = List.replicate (others - left) 1
  | .second left, popped => left ≤ others ∧
      popped = List.replicate others 1 ++ List.replicate (others - left) 2

structure Inv [Fintype Pid] (s : State Pid Data) : Prop where
  own : ∀ pid, s.buffer pid pid = []
  stream : ∀ i j, s.collected i j = values (s.sent i j) ++ s.buffer i j
  oneFirst : ∀ i j, (s.sent i j).countP Event.isFirst =
    if i = j then 0 else (s.phase i).firsts
  oneSecond : ∀ i j, (s.sent i j).countP Event.isSecond =
    if i = j then 0 else (s.phase i).seconds
  marked : ∀ i j, i ≠ j → s.phase i ≠ .outside →
    ∃ before after, s.sent i j = before ++ .first :: after ∧ values before = s.entered i j
  firsts : ∀ j, s.firsts j + (s.popped j).count 1 =
    ∑ i, (s.received i j).countP Event.isFirst
  seconds : ∀ j, s.seconds j + (s.popped j).count 2 =
    ∑ i, (s.received i j).countP Event.isSecond
  popped : ∀ j, (s.phase j).Popped (Fintype.card Pid - 1) (s.popped j)

section Events

variable {events more : List (Event Data)} {mark : Event Data} {data : List Data}

@[simp]
theorem values_append : values (events ++ more) = values events ++ values more :=
  List.filterMap_append

@[simp]
theorem values_data : values (data.map Event.data) = data := by
  induction data with
  | nil => rfl
  | cons value rest inductionHypothesis =>
      exact congrArg (value :: ·) inductionHypothesis

theorem values_toOthers (self target : Pid) (isMark : mark.value? = none) :
    values (toOthers self mark target) = [] := by
  unfold toOthers
  split
  · rfl
  · simp [values, isMark]

theorem countP_toOthers (kind : Event Data → Bool) (self target : Pid) :
    (toOthers self mark target).countP kind =
      if target ≠ self ∧ kind mark = true then 1 else 0 := by
  unfold toOthers
  by_cases same : target = self <;> simp [same, List.countP_singleton]

end Events

section Channels

variable {s : State Pid Data} {pid source target : Pid} {event : Event Data}
  {rest : List (Event Data)}

theorem sent_extend (more : Pid → List (Event Data)) :
    ({ s with queue := extend s.queue pid more } : State Pid Data).sent =
      extend s.sent pid more := by
  funext i j
  by_cases same : i = pid <;> simp [State.sent, extend, same]

theorem sent_flush : (s.flush pid).sent =
    extend s.sent pid fun target => (s.buffer pid target).map .data :=
  sent_extend _

theorem sent_mark (mark : Event Data) :
    (s.mark pid mark).sent = extend s.sent pid (toOthers pid mark) :=
  sent_extend _

theorem append_apply {Msg : Type v} (channels : Channels Pid Msg) (more : List Msg) (i j : Pid) :
    append channels source target more i j =
      channels i j ++ if i = source ∧ j = target then more else [] := by
  unfold append
  by_cases same : i = source ∧ j = target
  · obtain ⟨rfl, rfl⟩ := same
    simp
  · simp [Channels.setQueue_other _ _ same, same]

theorem countP_flush (kind : Event Data → Bool) (noData : ∀ value, kind (.data value) = false)
    (i j : Pid) : ((s.flush pid).sent i j).countP kind = (s.sent i j).countP kind := by
  have none : ((s.buffer i j).map Event.data).countP kind = 0 := by
    simp [List.countP_eq_zero, noData]
  rw [sent_flush]
  by_cases same : i = pid
  · subst same
    simp only [extend, if_true, List.countP_append, none, Nat.add_zero]
  · simp only [extend, if_neg same]

theorem countP_mark (kind : Event Data → Bool) (mark : Event Data) (i j : Pid) :
    ((s.mark pid mark).sent i j).countP kind = (s.sent i j).countP kind +
      if i = pid ∧ j ≠ pid ∧ kind mark = true then 1 else 0 := by
  rw [sent_mark]
  by_cases same : i = pid
  · subst same
    simp [extend, countP_toOthers]
  · simp [extend, same]

theorem values_mark {mark : Event Data} (s : State Pid Data) (isMark : mark.value? = none)
    (i j : Pid) : values ((s.mark pid mark).sent i j) = values (s.sent i j) := by
  rw [sent_mark]
  by_cases same : i = pid
  · subst same
    simp only [extend, if_true, values_append, values_toOthers i j isMark, List.append_nil]
  · simp only [extend, if_neg same]

theorem append_nil {Msg : Type v} (channels : Channels Pid Msg) :
    append channels source target [] = channels := by
  funext i j
  simp [append_apply]

theorem sent_receive (head : s.queue source target = event :: rest) :
    (s.receive source target event rest).sent = s.sent := by
  funext i j
  simp only [State.sent, State.receive, append_apply]
  by_cases same : i = source ∧ j = target
  · obtain ⟨rfl, rfl⟩ := same
    simp [head]
  · simp [same, Channels.setQueue_other _ _ same]

theorem sum_received [Fintype Pid] (kind : Event Data → Bool) (j : Pid) :
    ∑ i, (append s.received source target [event] i j).countP kind =
      ∑ i, (s.received i j).countP kind + if j = target ∧ kind event = true then 1 else 0 := by
  have each : ∀ i, (append s.received source target [event] i j).countP kind =
      (s.received i j).countP kind +
        if i = source then (if j = target ∧ kind event = true then 1 else 0) else 0 := by
    intro i
    rw [append_apply, List.countP_append]
    by_cases isSource : i = source <;> by_cases isTarget : j = target <;>
      simp [isSource, isTarget, List.countP_singleton]
  simp only [each, Finset.sum_add_distrib, Finset.sum_ite_eq', Finset.mem_univ, if_true]

end Channels

section Invariant

variable [Fintype Pid] {s next : State Pid Data}

theorem Inv.initial (initial : Initial s) : Inv s where
  own := initial.own
  stream i j := by simp [State.sent, initial.received, initial.collected]
  oneFirst i j := by
    have none : (s.queue i j).countP Event.isFirst = 0 :=
      List.countP_eq_zero.mpr fun event queued => by simp [(initial.unmarked i j event queued).1]
    simp [State.sent, initial.received, initial.phase, Phase.firsts, none]
  oneSecond i j := by
    have none : (s.queue i j).countP Event.isSecond = 0 :=
      List.countP_eq_zero.mpr fun event queued => by simp [(initial.unmarked i j event queued).2]
    simp [State.sent, initial.received, initial.phase, Phase.seconds, none]
  marked i j _ inside := by
    exact absurd (initial.phase i) inside
  firsts j := by simp [initial.firsts, initial.popped, initial.received]
  seconds j := by simp [initial.seconds, initial.popped, initial.received]
  popped j := by simp [initial.phase, initial.popped, Phase.Popped]

theorem Inv.flush (inv : Inv s) (pid : Pid) : Inv (s.flush pid) where
  own i := by
    by_cases same : i = pid
    · simp [State.flush, same]
    · simpa [State.flush, same] using inv.own i
  stream i j := by
    rw [sent_flush]
    by_cases same : i = pid
    · subst same
      simpa [State.flush, extend] using inv.stream i j
    · simpa [State.flush, extend, same] using inv.stream i j
  oneFirst i j := (countP_flush _ (fun _ => rfl) i j).trans (inv.oneFirst i j)
  oneSecond i j := (countP_flush _ (fun _ => rfl) i j).trans (inv.oneSecond i j)
  marked i j different inside := by
    obtain ⟨before, after, sent, isEntered⟩ := inv.marked i j different inside
    rw [sent_flush]
    by_cases same : i = pid
    · subst same
      exact ⟨before, after ++ (s.buffer i j).map .data, by simp [extend, sent], isEntered⟩
    · exact ⟨before, after, by simp [extend, same, sent], isEntered⟩
  firsts := inv.firsts
  seconds := inv.seconds
  popped := inv.popped

theorem Inv.collect (inv : Inv s) {source target : Pid} (different : source ≠ target)
    (data : List Data) : Inv (s.collect source target data) where
  own i := by
    have elsewhere : ¬ (i = source ∧ i = target) :=
      fun same => different (same.1.symm.trans same.2)
    simp [State.collect, append_apply, elsewhere, inv.own]
  stream i j := by
    have before := inv.stream i j
    simp only [State.collect, append_apply, before, List.append_assoc]
    rfl
  oneFirst := inv.oneFirst
  oneSecond := inv.oneSecond
  marked := inv.marked
  firsts := inv.firsts
  seconds := inv.seconds
  popped := inv.popped

/-- A process enters the barrier: its first marks stand behind all that it has
collected. -/
theorem Inv.enter (inv : Inv s) {pid : Pid} (outside : s.phase pid = .outside) :
    Inv (s.enter pid) := by
  have flushed := inv.flush pid
  have sameSent : (s.enter pid).sent = ((s.flush pid).mark pid .first).sent := rfl
  have otherPhase : ∀ i, i ≠ pid → (s.enter pid).phase i = s.phase i :=
    fun i other => Function.update_of_ne other _ _
  have ownPhase : (s.enter pid).phase pid = .first (Fintype.card Pid - 1) :=
    Function.update_self _ _ _
  refine ⟨flushed.own, ?stream, ?oneFirst, ?oneSecond, ?marked, inv.firsts, inv.seconds, ?popped⟩
  case stream =>
    intro i j
    have before := flushed.stream i j
    rw [sameSent, values_mark _ rfl]
    exact before
  case oneFirst =>
    intro i j
    have before : ((s.flush pid).sent i j).countP Event.isFirst =
        if i = j then 0 else (s.phase i).firsts := flushed.oneFirst i j
    rw [sameSent, countP_mark, before]
    by_cases same : i = pid
    · subst same
      rw [ownPhase, outside]
      by_cases toItself : i = j
      · simp [toItself]
      · simp [toItself, Ne.symm toItself, Event.isFirst, Phase.firsts]
    · simp [otherPhase i same, same]
  case oneSecond =>
    intro i j
    have before : ((s.flush pid).sent i j).countP Event.isSecond =
        if i = j then 0 else (s.phase i).seconds := flushed.oneSecond i j
    rw [sameSent, countP_mark, before]
    by_cases same : i = pid
    · subst same
      simp [ownPhase, outside, Phase.seconds, Event.isSecond]
    · simp [otherPhase i same, same]
  case marked =>
    intro i j different inside
    rw [sameSent, sent_mark]
    by_cases same : i = pid
    · subst same
      refine ⟨(s.flush i).sent i j, [], ?_, ?_⟩
      · simp [extend, toOthers, Ne.symm different]
      · have before := flushed.stream i j
        have empty : (s.flush i).buffer i j = [] := by simp [State.flush]
        rw [empty, List.append_nil] at before
        rw [← before]
        exact (congrFun (Function.update_self i (s.collected i) s.entered) j).symm
    · rw [otherPhase i same] at inside
      obtain ⟨before, after, sent, isEntered⟩ := flushed.marked i j different inside
      refine ⟨before, after, ?_, ?_⟩
      · simpa [extend, same] using sent
      · exact isEntered.trans (congrFun (Function.update_of_ne same _ s.entered) j).symm
  case popped =>
    intro j
    by_cases same : j = pid
    · subst same
      have before : s.popped j = [] := by simpa [outside, Phase.Popped] using inv.popped j
      have samePopped : (s.enter j).popped j = s.popped j := rfl
      rw [ownPhase, samePopped, before, Phase.Popped, Nat.sub_self]
      exact ⟨le_rfl, rfl⟩
    · rw [otherPhase j same]
      exact inv.popped j

theorem Inv.release (inv : Inv s) {pid : Pid} (counted : s.phase pid = .first 0) :
    Inv (s.release pid) := by
  have sameSent : (s.release pid).sent = (s.mark pid .second).sent := rfl
  have otherPhase : ∀ i, i ≠ pid → (s.release pid).phase i = s.phase i :=
    fun i other => Function.update_of_ne other _ _
  have ownPhase : (s.release pid).phase pid = .second (Fintype.card Pid - 1) :=
    Function.update_self _ _ _
  refine ⟨inv.own, ?stream, ?oneFirst, ?oneSecond, ?marked, inv.firsts, inv.seconds, ?popped⟩
  case stream =>
    intro i j
    rw [sameSent, values_mark _ rfl]
    exact inv.stream i j
  case oneFirst =>
    intro i j
    rw [sameSent, countP_mark, inv.oneFirst i j]
    by_cases same : i = pid
    · subst same
      simp [ownPhase, counted, Phase.firsts, Event.isFirst]
    · simp [otherPhase i same, same]
  case oneSecond =>
    intro i j
    rw [sameSent, countP_mark, inv.oneSecond i j]
    by_cases same : i = pid
    · subst same
      rw [ownPhase, counted]
      by_cases toItself : i = j
      · simp [toItself]
      · simp [toItself, Ne.symm toItself, Event.isSecond, Phase.seconds]
    · simp [otherPhase i same, same]
  case marked =>
    intro i j different inside
    have wasInside : s.phase i ≠ .outside := by
      by_cases same : i = pid
      · simp [same, counted]
      · rwa [otherPhase i same] at inside
    obtain ⟨before, after, sent, isEntered⟩ := inv.marked i j different wasInside
    rw [sameSent, sent_mark]
    by_cases same : i = pid
    · subst same
      exact ⟨before, after ++ toOthers i .second j, by simp [extend, sent], isEntered⟩
    · exact ⟨before, after, by simpa [extend, same] using sent, isEntered⟩
  case popped =>
    intro j
    by_cases same : j = pid
    · subst same
      have before : s.popped j = List.replicate (Fintype.card Pid - 1) 1 := by
        simpa [counted, Phase.Popped] using inv.popped j
      have samePopped : (s.release j).popped j = s.popped j := rfl
      rw [ownPhase, samePopped, before, Phase.Popped, Nat.sub_self]
      exact ⟨le_rfl, (List.append_nil _).symm⟩
    · rw [otherPhase j same]
      exact inv.popped j

theorem Inv.receive (inv : Inv s) {source target : Pid} {event : Event Data}
    {rest : List (Event Data)} (head : s.queue source target = event :: rest) :
    Inv (s.receive source target event rest) where
  own := inv.own
  stream i j := by
    rw [sent_receive head]
    exact inv.stream i j
  oneFirst i j := by
    rw [sent_receive head]
    exact inv.oneFirst i j
  oneSecond i j := by
    rw [sent_receive head]
    exact inv.oneSecond i j
  marked i j different inside := by
    rw [sent_receive head]
    exact inv.marked i j different inside
  firsts j := by
    have before := inv.firsts j
    simp only [State.receive, sum_received, ← before]
    by_cases same : j = target <;> cases isMark : event.isFirst <;> simp [same]
    omega
  seconds j := by
    have before := inv.seconds j
    simp only [State.receive, sum_received, ← before]
    by_cases same : j = target <;> cases isMark : event.isSecond <;> simp [same]
    omega
  popped := inv.popped

theorem Inv.pop (inv : Inv s) {pid : Pid} {phase : Phase} {firsts seconds token : Nat}
    (inside : s.phase pid ≠ .outside) (sameFirsts : (s.phase pid).firsts = phase.firsts)
    (sameSeconds : (s.phase pid).seconds = phase.seconds)
    (takenFirst : firsts + [token].count 1 = s.firsts pid)
    (takenSecond : seconds + [token].count 2 = s.seconds pid)
    (popped : phase.Popped (Fintype.card Pid - 1) (s.popped pid ++ [token])) :
    Inv (s.pop pid phase firsts seconds token) := by
  have otherPhase : ∀ i, i ≠ pid → (s.pop pid phase firsts seconds token).phase i = s.phase i :=
    fun i other => Function.update_of_ne other _ _
  have ownPhase : (s.pop pid phase firsts seconds token).phase pid = phase :=
    Function.update_self _ _ _
  have ownPopped : (s.pop pid phase firsts seconds token).popped pid = s.popped pid ++ [token] :=
    Function.update_self _ _ _
  have otherPopped : ∀ i, i ≠ pid →
      (s.pop pid phase firsts seconds token).popped i = s.popped i :=
    fun i other => Function.update_of_ne other _ _
  refine ⟨inv.own, inv.stream, ?oneFirst, ?oneSecond, ?marked, ?firsts, ?seconds, ?popped⟩
  case oneFirst =>
    intro i j
    refine (inv.oneFirst i j).trans ?_
    by_cases same : i = pid
    · rw [same, ownPhase, sameFirsts]
    · rw [otherPhase i same]
  case oneSecond =>
    intro i j
    refine (inv.oneSecond i j).trans ?_
    by_cases same : i = pid
    · rw [same, ownPhase, sameSeconds]
    · rw [otherPhase i same]
  case marked =>
    intro i j different stillInside
    refine inv.marked i j different ?_
    by_cases same : i = pid
    · rwa [same]
    · rwa [otherPhase i same] at stillInside
  case firsts =>
    intro j
    refine Eq.trans ?_ (inv.firsts j)
    by_cases same : j = pid
    · subst same
      have left : (s.pop j phase firsts seconds token).firsts j = firsts :=
        Function.update_self _ _ _
      rw [ownPopped, left, List.count_append, ← takenFirst]
      ring
    · have left : (s.pop pid phase firsts seconds token).firsts j = s.firsts j :=
        Function.update_of_ne same _ _
      rw [otherPopped j same, left]
  case seconds =>
    intro j
    refine Eq.trans ?_ (inv.seconds j)
    by_cases same : j = pid
    · subst same
      have left : (s.pop j phase firsts seconds token).seconds j = seconds :=
        Function.update_self _ _ _
      rw [ownPopped, left, List.count_append, ← takenSecond]
      ring
    · have left : (s.pop pid phase firsts seconds token).seconds j = s.seconds j :=
        Function.update_of_ne same _ _
      rw [otherPopped j same, left]
  case popped =>
    intro j
    by_cases same : j = pid
    · subst same
      rwa [ownPhase, ownPopped]
    · rw [otherPhase j same, otherPopped j same]
      exact inv.popped j

theorem Inv.popFirst (inv : Inv s) {pid : Pid} {left tokens : Nat}
    (phase : s.phase pid = .first (left + 1)) (token : s.firsts pid = tokens + 1) :
    Inv (s.pop pid (.first left) tokens (s.seconds pid) 1) := by
  obtain ⟨fewer, isPopped⟩ : left + 1 ≤ Fintype.card Pid - 1 ∧
      s.popped pid = List.replicate (Fintype.card Pid - 1 - (left + 1)) 1 := by
    simpa [phase, Phase.Popped] using inv.popped pid
  have oneMore : Fintype.card Pid - 1 - left = Fintype.card Pid - 1 - (left + 1) + 1 := by omega
  refine inv.pop (by simp [phase]) (by simp [phase, Phase.firsts]) (by simp [phase, Phase.seconds])
    token.symm rfl ⟨Nat.le_of_succ_le fewer, ?_⟩
  rw [isPopped, oneMore, List.replicate_succ']

theorem Inv.popSecond (inv : Inv s) {pid : Pid} {left tokens : Nat}
    (phase : s.phase pid = .second (left + 1)) (token : s.seconds pid = tokens + 1) :
    Inv (s.pop pid (.second left) (s.firsts pid) tokens 2) := by
  obtain ⟨fewer, isPopped⟩ : left + 1 ≤ Fintype.card Pid - 1 ∧
      s.popped pid = List.replicate (Fintype.card Pid - 1) 1 ++
        List.replicate (Fintype.card Pid - 1 - (left + 1)) 2 := by
    simpa [phase, Phase.Popped] using inv.popped pid
  have oneMore : Fintype.card Pid - 1 - left = Fintype.card Pid - 1 - (left + 1) + 1 := by omega
  refine inv.pop (by simp [phase]) (by simp [phase, Phase.firsts]) (by simp [phase, Phase.seconds])
    rfl token.symm ⟨Nat.le_of_succ_le fewer, ?_⟩
  rw [isPopped, oneMore, List.replicate_succ', List.append_assoc]

theorem Inv.step (inv : Inv s) {action : Action Pid Data} (stepped : step s action = some next) :
    Inv next := by
  cases action with
  | collect source target values =>
      simp only [Barrier.step] at stepped
      split at stepped
      · cases stepped
      · rename_i different
        cases stepped
        exact inv.collect different values
  | flush pid =>
      cases stepped
      exact inv.flush pid
  | enter pid =>
      simp only [Barrier.step] at stepped
      split at stepped
      · rename_i outside
        cases stepped
        exact inv.enter outside
      · cases stepped
  | receive source target =>
      simp only [Barrier.step] at stepped
      split at stepped
      · cases stepped
      · rename_i head
        cases stepped
        exact inv.receive head
  | popFirst pid =>
      simp only [Barrier.step] at stepped
      split at stepped
      · rename_i phase token
        cases stepped
        exact inv.popFirst phase token
      · cases stepped
  | release pid =>
      simp only [Barrier.step] at stepped
      split at stepped
      · rename_i counted
        cases stepped
        exact inv.release counted
      · cases stepped
  | popSecond pid =>
      simp only [Barrier.step] at stepped
      split at stepped
      · rename_i phase token
        cases stepped
        exact inv.popSecond phase token
      · cases stepped

theorem inv_of_reached (reached : Reachable system s) : Inv s := by
  refine Reached.invariant Inv ?_ ?_ reached
  · exact fun _ initial => .initial initial
  · intro before action next _ inv _ stepped
    exact inv.step stepped

theorem Inv.firsts_le (inv : Inv s) (i j : Pid) :
    (s.received i j).countP Event.isFirst ≤ if i = j then 0 else 1 := by
  have received : (s.received i j).countP Event.isFirst ≤ (s.sent i j).countP Event.isFirst := by
    rw [State.sent, List.countP_append]
    exact Nat.le_add_right _ _
  rw [inv.oneFirst i j] at received
  refine received.trans ?_
  split
  · exact le_rfl
  · exact (s.phase i).firsts_le

theorem Inv.seconds_le (inv : Inv s) (i j : Pid) :
    (s.received i j).countP Event.isSecond ≤ if i = j then 0 else 1 := by
  have received : (s.received i j).countP Event.isSecond ≤
      (s.sent i j).countP Event.isSecond := by
    rw [State.sent, List.countP_append]
    exact Nat.le_add_right _ _
  rw [inv.oneSecond i j] at received
  refine received.trans ?_
  split
  · exact le_rfl
  · exact (s.phase i).seconds_le

/-- A process which has popped all first tokens has received the first mark of
every other process. -/
theorem Inv.firsts_received (inv : Inv s) {i j : Pid} (different : i ≠ j)
    (all : Fintype.card Pid - 1 ≤ (s.popped j).count 1) :
    (s.received i j).countP Event.isFirst = 1 := by
  refine count_of_sum (fun i => inv.firsts_le i j) ?_ i different
  rw [← inv.firsts j]
  exact all.trans (Nat.le_add_left _ _)

theorem Inv.seconds_received (inv : Inv s) {i j : Pid} (different : i ≠ j)
    (all : Fintype.card Pid - 1 ≤ (s.popped j).count 2) :
    (s.received i j).countP Event.isSecond = 1 := by
  refine count_of_sum (fun i => inv.seconds_le i j) ?_ i different
  rw [← inv.seconds j]
  exact all.trans (Nat.le_add_left _ _)

/-- A process which is done has received one mark of each kind from every other
process, has popped as many tokens, and no token is left. -/
theorem Inv.finished (inv : Inv s) {j : Pid} (done : s.phase j = .second 0) :
    (∀ i, i ≠ j → (s.received i j).countP Event.isFirst = 1 ∧
      (s.received i j).countP Event.isSecond = 1) ∧
    s.popped j = List.replicate (Fintype.card Pid - 1) 1 ++
      List.replicate (Fintype.card Pid - 1) 2 ∧
    s.firsts j = 0 ∧ s.seconds j = 0 := by
  have popped : s.popped j = List.replicate (Fintype.card Pid - 1) 1 ++
      List.replicate (Fintype.card Pid - 1) 2 := by
    simpa [done, Phase.Popped] using inv.popped j
  have ones : (s.popped j).count 1 = Fintype.card Pid - 1 := by
    simp [popped, List.count_replicate]
  have twos : (s.popped j).count 2 = Fintype.card Pid - 1 := by
    simp [popped, List.count_replicate]
  have firstTokens := inv.firsts j
  have firstMarks := Finset.sum_le_sum fun i (_ : i ∈ Finset.univ) => inv.firsts_le i j
  have secondTokens := inv.seconds j
  have secondMarks := Finset.sum_le_sum fun i (_ : i ∈ Finset.univ) => inv.seconds_le i j
  rw [sum_others] at firstMarks secondMarks
  refine ⟨fun i different => ⟨?_, ?_⟩, popped, by omega, by omega⟩
  · exact inv.firsts_received different ones.ge
  · exact inv.seconds_received different twos.ge

/-- If all processes have entered, nothing is in flight and no process can pop a
token or be released, then all are done. -/
theorem Inv.complete (inv : Inv s) (entered : ∀ i, s.phase i ≠ .outside)
    (quiet : ∀ i j, s.queue i j = [])
    (stuck : ∀ j, Barrier.step s (.popFirst j) = none ∧ Barrier.step s (.release j) = none ∧
      Barrier.step s (.popSecond j) = none) (j : Pid) : s.phase j = .second 0 := by
  have sent : ∀ i j, s.sent i j = s.received i j := fun i j => by simp [State.sent, quiet]
  have released : ∀ j, ∃ left, s.phase j = .second left := by
    intro j
    obtain ⟨noPop, noRelease, -⟩ := stuck j
    have popped := inv.popped j
    cases phase : s.phase j with
    | outside => exact absurd phase (entered j)
    | second left => exact ⟨left, rfl⟩
    | first left =>
        cases left with
        | zero => simp [Barrier.step, phase] at noRelease
        | succ left =>
            rw [phase] at popped
            have tokens := inv.firsts j
            have marks : ∑ i, (s.received i j).countP Event.isFirst = Fintype.card Pid - 1 := by
              rw [← sum_others j]
              refine Finset.sum_congr rfl fun i _ => ?_
              rw [← sent, inv.oneFirst i j]
              split
              · rfl
              · cases isPhase : s.phase i with
                | outside => exact absurd isPhase (entered i)
                | first left => rfl
                | second left => rfl
            have someToken : s.firsts j ≠ 0 := by
              rw [marks, popped.2, List.count_replicate_self] at tokens
              have := popped.1
              omega
            obtain ⟨tokens, isTokens⟩ := Nat.exists_eq_succ_of_ne_zero someToken
            simp [Barrier.step, phase, isTokens] at noPop
  obtain ⟨left, phase⟩ := released j
  cases left with
  | zero => exact phase
  | succ left =>
      have popped := inv.popped j
      rw [phase] at popped
      have tokens := inv.seconds j
      have marks : ∑ i, (s.received i j).countP Event.isSecond = Fintype.card Pid - 1 := by
        rw [← sum_others j]
        refine Finset.sum_congr rfl fun i _ => ?_
        obtain ⟨left, isPhase⟩ := released i
        rw [← sent, inv.oneSecond i j, isPhase]
        rfl
      have someToken : s.seconds j ≠ 0 := by
        rw [marks, popped.2] at tokens
        simp only [List.count_append, List.count_replicate] at tokens
        have := popped.1
        simp at tokens
        omega
      obtain ⟨tokens, isTokens⟩ := Nat.exists_eq_succ_of_ne_zero someToken
      have noPop := (stuck j).2.2
      simp [Barrier.step, phase, isTokens] at noPop

end Invariant

end Barrier
