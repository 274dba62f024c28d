import Mathlib.Algebra.BigOperators.Fin
import Mathlib.Algebra.Order.BigOperators.Group.Finset
import Mathlib.Algebra.Order.BigOperators.Group.List
import Mathlib.Tactic

/-!
# FIFO networks

Reliable channels between processes, one queue for each ordered pair.  A
process sends a list of addressed messages; a broadcast addresses one message
to every other process.  `weight` sums a measure of the messages over the whole
network.
-/

namespace Network

universe u v

variable {Pid : Type u} {Msg : Type v} [DecidableEq Pid]

/-- The messages on their way from the first process to the second, oldest
first. -/
abbrev Channels (Pid : Type u) (Msg : Type v) := Pid → Pid → List Msg

namespace Channels

/-- Append the addressed messages to the queues of the sender. -/
def send (channels : Channels Pid Msg) (source : Pid) (sent : List (Pid × Msg)) :
    Channels Pid Msg :=
  fun i j =>
    if i = source then channels i j ++ (sent.filter fun pair => pair.1 = j).map Prod.snd
    else channels i j

def post (channels : Channels Pid Msg) (source : Pid) (receivers : List Pid)
    (message : Msg) : Channels Pid Msg :=
  channels.send source (receivers.map fun receiver => (receiver, message))

/-- Replace the queue between two processes. -/
def setQueue (channels : Channels Pid Msg) (source target : Pid) (queue : List Msg) :
    Channels Pid Msg :=
  fun i j => if i = source ∧ j = target then queue else channels i j

/-- No message is on its way. -/
def Empty (channels : Channels Pid Msg) : Prop := ∀ i j, channels i j = []

instance [Fintype Pid] [DecidableEq Msg] (channels : Channels Pid Msg) :
    Decidable channels.Empty :=
  inferInstanceAs (Decidable (∀ i j, channels i j = []))

/-- A message is in flight after a send if it was before or is among those
sent. -/
theorem mem_send {channels : Channels Pid Msg} {source i j : Pid} {sent : List (Pid × Msg)}
    {message : Msg} :
    message ∈ channels.send source sent i j ↔
      message ∈ channels i j ∨ (i = source ∧ (j, message) ∈ sent) := by
  by_cases same : i = source
  · subst same
    simp [send]
  · simp [send, same]

theorem mem_post {channels : Channels Pid Msg} {source i j : Pid}
    {receivers : List Pid} {message other : Msg} :
    other ∈ channels.post source receivers message i j ↔
      other ∈ channels i j ∨ (i = source ∧ j ∈ receivers ∧ other = message) := by
  rw [post, mem_send]
  simp [eq_comm]

@[simp]
theorem send_nil (channels : Channels Pid Msg) (source : Pid) :
    channels.send source [] = channels := by
  funext i j
  simp [send]

@[simp]
theorem setQueue_same (channels : Channels Pid Msg) (source target : Pid)
    (queue : List Msg) : channels.setQueue source target queue source target = queue := by
  simp [setQueue]

theorem setQueue_other (channels : Channels Pid Msg) {source target i j : Pid}
    (queue : List Msg) (other : ¬ (i = source ∧ j = target)) :
    channels.setQueue source target queue i j = channels i j := by
  simp only [setQueue, if_neg other]

theorem setQueue_self (channels : Channels Pid Msg) (source target : Pid) :
    channels.setQueue source target (channels source target) = channels := by
  funext i j
  by_cases same : i = source ∧ j = target
  · obtain ⟨rfl, rfl⟩ := same
    rw [setQueue_same]
  · rw [setQueue_other _ _ same]

theorem mem_setQueue {channels : Channels Pid Msg} {source target i j : Pid}
    {message : Msg} {queue : List Msg}
    (membership : message ∈ channels.setQueue source target queue i j) :
    (i = source ∧ j = target ∧ message ∈ queue) ∨ message ∈ channels i j := by
  by_cases same : i = source ∧ j = target
  · rcases same with ⟨rfl, rfl⟩
    rw [setQueue_same] at membership
    exact .inl ⟨rfl, rfl, membership⟩
  · rw [setQueue_other _ _ same] at membership
    exact .inr membership

theorem mem_of_mem_setQueue_tail {channels : Channels Pid Msg} {source target i j : Pid}
    {message other : Msg} {rest : List Msg}
    (head : channels source target = message :: rest)
    (membership : other ∈ channels.setQueue source target rest i j) :
    other ∈ channels i j := by
  rcases mem_setQueue membership with ⟨rfl, rfl, remaining⟩ | old
  · rw [head]
    exact List.mem_cons_of_mem _ remaining
  · exact old

theorem mem_setQueue_tail {channels : Channels Pid Msg} {source target i j : Pid}
    {message other : Msg} {rest : List Msg}
    (head : channels source target = message :: rest)
    (membership : other ∈ channels i j) (different : other ≠ message) :
    other ∈ channels.setQueue source target rest i j := by
  by_cases same : i = source ∧ j = target
  · rcases same with ⟨rfl, rfl⟩
    rw [setQueue_same]
    rw [head] at membership
    exact (List.mem_cons.mp membership).resolve_left different
  · rwa [setQueue_other _ _ same]

/-- The messages of one kind. -/
def select (channels : Channels Pid Msg) (keep : Msg → Bool) : Channels Pid Msg :=
  fun i j => (channels i j).filter keep

theorem select_send (channels : Channels Pid Msg) (keep : Msg → Bool) (source : Pid)
    (sent : List (Pid × Msg)) : (channels.send source sent).select keep =
      (channels.select keep).send source (sent.filter fun pair => keep pair.2) := by
  funext i j
  by_cases same : i = source
  · subst same
    simp [select, send, List.filter_map, List.filter_filter, Function.comp_def, Bool.and_comm]
  · simp [select, send, same]

theorem select_setQueue (channels : Channels Pid Msg) (keep : Msg → Bool) (source target : Pid)
    (queue : List Msg) : (channels.setQueue source target queue).select keep =
      (channels.select keep).setQueue source target (queue.filter keep) := by
  funext i j
  by_cases same : i = source ∧ j = target
  · obtain ⟨rfl, rfl⟩ := same
    rw [select, setQueue_same, setQueue_same]
  · rw [select, setQueue_other _ _ same, setQueue_other _ _ same, select]

end Channels

/-- Every process but the given one, in the order of their ids. -/
def others {n : Nat} (self : Fin n) : List (Fin n) :=
  (List.finRange n).filter fun i => decide (i ≠ self)

instance decidableMem {n : Nat} (pid : Fin n) (pids : List (Fin n)) : Decidable (pid ∈ pids) :=
  List.instDecidableMemOfLawfulBEq pid pids

@[simp]
theorem mem_others {n : Nat} {self i : Fin n} : i ∈ others self ↔ i ≠ self := by
  simp [others]

theorem nodup_others {n : Nat} (self : Fin n) : (others self).Nodup :=
  (List.nodup_finRange n).filter _

theorem length_others {n : Nat} (self : Fin n) : (others self).length = n - 1 := by
  have isErase : (others self).toFinset = Finset.univ.erase self := by
    ext i
    simp
  rw [← List.toFinset_card_of_nodup (nodup_others self), isErase,
    Finset.card_erase_of_mem (Finset.mem_univ self), Finset.card_univ, Fintype.card_fin]

theorem filter_map_of_nodup {receivers : List Pid} (nodup : receivers.Nodup) (message : Msg)
    (target : Pid) :
    ((receivers.map fun receiver => (receiver, message)).filter fun pair => pair.1 = target).map
      Prod.snd = if target ∈ receivers then [message] else [] := by
  induction receivers with
  | nil => rfl
  | cons receiver rest inductionHypothesis =>
      obtain ⟨unlisted, nodupRest⟩ := List.nodup_cons.mp nodup
      have later := inductionHypothesis nodupRest
      by_cases same : receiver = target
      · subst same
        rw [if_neg unlisted] at later
        simp [later]
      · simp [same, later, Ne.symm same]

theorem filter_filterMap_of_nodup {receivers : List Pid} (nodup : receivers.Nodup)
    (message : Pid → Option Msg) (target : Pid) :
    ((receivers.filterMap fun receiver => (message receiver).map (receiver, ·)).filter
        fun pair => pair.1 = target).map Prod.snd =
      if target ∈ receivers then (message target).toList else [] := by
  induction receivers with
  | nil => rfl
  | cons receiver rest inductionHypothesis =>
      obtain ⟨unlisted, nodupRest⟩ := List.nodup_cons.mp nodup
      have later := inductionHypothesis nodupRest
      by_cases same : receiver = target
      · subst same
        rw [if_neg unlisted] at later
        cases sent : message receiver <;> simp [sent, later]
      · cases sent : message receiver <;> simp [sent, same, later, Ne.symm same]

theorem send_singleton (channels : Channels Pid Msg) (source target : Pid) (message : Msg)
    (i j : Pid) : channels.send source [(target, message)] i j =
      if i = source ∧ j = target then channels i j ++ [message] else channels i j := by
  by_cases fromSource : i = source
  · by_cases toTarget : j = target
    · simp [Channels.send, fromSource, toTarget]
    · simp [Channels.send, fromSource, toTarget, Ne.symm toTarget]
  · simp [Channels.send, fromSource]

theorem post_eq {receivers : List Pid} (nodup : receivers.Nodup) (channels : Channels Pid Msg)
    (source : Pid) (message : Msg) (i j : Pid) : channels.post source receivers message i j =
      if i = source ∧ j ∈ receivers then channels i j ++ [message] else channels i j := by
  unfold Channels.post Channels.send
  rw [filter_map_of_nodup nodup]
  by_cases fromSource : i = source <;> by_cases listed : j ∈ receivers <;> simp [fromSource, listed]

section Everywhere

universe w

variable {Process : Type w}

/-- An invariant which is given by one for the state of each process and one
for each message in flight. -/
structure Everywhere (onProcess : Pid → Process → Prop) (onMsg : Pid → Pid → Msg → Prop)
    (proc : Pid → Process) (channels : Channels Pid Msg) : Prop where
  processes : ∀ pid, onProcess pid (proc pid)
  messages : ∀ i j, ∀ message ∈ channels i j, onMsg i j message

variable {onProcess : Pid → Process → Prop} {onMsg : Pid → Pid → Msg → Prop}
  {proc : Pid → Process} {channels : Channels Pid Msg}

/-- A process which changes its state and sends messages only has to establish
the invariant for these. -/
theorem Everywhere.apply (everywhere : Everywhere onProcess onMsg proc channels) {pid : Pid}
    {process : Process} {sent : List (Pid × Msg)} (changed : onProcess pid process)
    (new : ∀ target message, (target, message) ∈ sent → onMsg pid target message) :
    Everywhere onProcess onMsg (Function.update proc pid process) (channels.send pid sent) where
  processes i := by
    by_cases same : i = pid
    · subst same
      simpa using changed
    · simpa [same] using everywhere.processes i
  messages i j message membership := by
    rcases Channels.mem_send.mp membership with old | ⟨rfl, addressed⟩
    · exact everywhere.messages i j message old
    · exact new j message addressed

omit [DecidableEq Pid] in
theorem Everywhere.imp {onProcess' : Pid → Process → Prop} {onMsg' : Pid → Pid → Msg → Prop}
    (everywhere : Everywhere onProcess onMsg proc channels)
    (processes : ∀ pid process, onProcess pid process → onProcess' pid process)
    (messages : ∀ i j message, onMsg i j message → onMsg' i j message) :
    Everywhere onProcess' onMsg' proc channels where
  processes pid := processes pid _ (everywhere.processes pid)
  messages i j message membership := messages i j _ (everywhere.messages i j message membership)

theorem Everywhere.setQueue (everywhere : Everywhere onProcess onMsg proc channels)
    {source target : Pid} {queue : List Msg} (remaining : ∀ message ∈ queue,
      onMsg source target message) :
    Everywhere onProcess onMsg proc (channels.setQueue source target queue) where
  processes := everywhere.processes
  messages i j message membership := by
    by_cases same : i = source ∧ j = target
    · obtain ⟨rfl, rfl⟩ := same
      rw [Channels.setQueue_same] at membership
      exact remaining message membership
    · rw [Channels.setQueue_other _ _ same] at membership
      exact everywhere.messages i j message membership

theorem Everywhere.tail (everywhere : Everywhere onProcess onMsg proc channels)
    {source target : Pid} {message : Msg} {rest : List Msg}
    (head : channels source target = message :: rest) :
    Everywhere onProcess onMsg proc (channels.setQueue source target rest) := by
  apply everywhere.setQueue
  intro other membership
  apply everywhere.messages
  rw [head]
  exact List.mem_cons_of_mem _ membership

end Everywhere

section Weight

variable [Fintype Pid]

theorem sum_update {Value : Type*} (measure : Pid → Value → ℤ) (values : Pid → Value)
    (pid : Pid) (value : Value) :
    ∑ i, measure i (Function.update values pid value i) =
      ∑ i, measure i (values i) - measure pid (values pid) + measure pid value := by
  rw [← Finset.add_sum_erase _ _ (Finset.mem_univ pid),
    ← Finset.add_sum_erase _ (fun i => measure i (values i)) (Finset.mem_univ pid)]
  have unchanged : ∑ i ∈ Finset.univ.erase pid, measure i (Function.update values pid value i) =
      ∑ i ∈ Finset.univ.erase pid, measure i (values i) := by
    refine Finset.sum_congr rfl fun i membership => ?_
    rw [Function.update_of_ne (Finset.ne_of_mem_erase membership)]
  rw [unchanged, Function.update_self]
  ring

theorem sum_others (j : Pid) : ∑ i, (if i = j then 0 else 1) = Fintype.card Pid - 1 := by
  simp [Finset.sum_ite, Finset.filter_ne', Finset.card_erase_of_mem]

/-- If every other process counts one at most and all together count as many as
there are others, then each of them counts one. -/
theorem count_of_sum {count : Pid → Nat} {j : Pid}
    (atMost : ∀ i, count i ≤ if i = j then 0 else 1) (all : Fintype.card Pid - 1 ≤ ∑ i, count i)
    (i : Pid) (different : i ≠ j) : count i = 1 := by
  have total : ∑ i, count i = ∑ i, (if i = j then 0 else 1) :=
    Nat.le_antisymm (Finset.sum_le_sum fun i _ => atMost i) (sum_others j ▸ all)
  have each := (Finset.sum_eq_sum_iff_of_le fun i _ => atMost i).mp total i (Finset.mem_univ i)
  rwa [if_neg different] at each

def weight (measure : Msg → ℤ) (channels : Channels Pid Msg) : ℤ :=
  ∑ i, ∑ j, ((channels i j).map measure).sum

omit [DecidableEq Pid] in
theorem weight_nonneg {measure : Msg → ℤ} (nonneg : ∀ message, 0 ≤ measure message)
    (channels : Channels Pid Msg) : 0 ≤ weight measure channels := by
  refine Finset.sum_nonneg fun i _ => Finset.sum_nonneg fun j _ => List.sum_nonneg ?_
  intro value membership
  rcases List.mem_map.mp membership with ⟨message, _, rfl⟩
  exact nonneg message

omit [DecidableEq Pid] in
theorem weight_of_empty {measure : Msg → ℤ} {channels : Channels Pid Msg}
    (empty : channels.Empty) : weight measure channels = 0 := by
  refine Finset.sum_eq_zero fun i _ => Finset.sum_eq_zero fun j _ => ?_
  rw [empty i j, List.map_nil, List.sum_nil]

theorem weight_send (measure : Msg → ℤ) (channels : Channels Pid Msg) (source : Pid)
    (sent : List (Pid × Msg)) :
    weight measure (channels.send source sent) =
      weight measure channels + (sent.map fun pair => measure pair.2).sum := by
  have columns : ∑ j, (((sent.filter fun pair => pair.1 = j).map Prod.snd).map measure).sum =
      (sent.map fun pair => measure pair.2).sum := by
    induction sent with
    | nil => simp
    | cons pair rest inductionHypothesis =>
        have split : ∀ j, ((((pair :: rest).filter fun pair => pair.1 = j).map
            Prod.snd).map measure).sum = (if pair.1 = j then measure pair.2 else 0) +
              (((rest.filter fun pair => pair.1 = j).map Prod.snd).map measure).sum := by
          intro j
          by_cases addressed : pair.1 = j <;> simp [addressed]
        simp only [split, Finset.sum_add_distrib, inductionHypothesis]
        simp
  have rows : ∀ i, ∑ j, ((channels.send source sent i j).map measure).sum =
      ∑ j, ((channels i j).map measure).sum +
        if i = source then (sent.map fun pair => measure pair.2).sum else 0 := by
    intro i
    by_cases same : i = source
    · subst same
      simp only [Channels.send, if_true, List.map_append, List.sum_append,
        Finset.sum_add_distrib, columns]
    · simp [Channels.send, same]
  simp [weight, rows, Finset.sum_add_distrib]

theorem weight_setQueue (measure : Msg → ℤ) (channels : Channels Pid Msg)
    (source target : Pid) (queue : List Msg) :
    weight measure (channels.setQueue source target queue) =
      weight measure channels - ((channels source target).map measure).sum +
        (queue.map measure).sum := by
  have asUpdate : channels.setQueue source target queue =
      Function.update channels source
        (Function.update (channels source) target queue) := by
    funext i j
    by_cases first : i = source
    · subst first
      by_cases second : j = target
      · subst second
        simp [Channels.setQueue]
      · simp [Channels.setQueue, second]
    · simp [Channels.setQueue, first]
  unfold weight
  rw [asUpdate, sum_update (fun _ row => ∑ j, (List.map measure (row j)).sum) channels,
    sum_update (fun _ messages => (List.map measure messages).sum) (channels source)]
  ring

theorem weight_tail (measure : Msg → ℤ) (channels : Channels Pid Msg)
    {source target : Pid} {message : Msg} {rest : List Msg}
    (head : channels source target = message :: rest) :
    weight measure (channels.setQueue source target rest) =
      weight measure channels - measure message := by
  rw [weight_setQueue, head, List.map_cons, List.sum_cons]
  ring

omit [DecidableEq Pid] in
theorem weight_eq_zero {measure : Msg → ℤ} {channels : Channels Pid Msg}
    (nothing : ∀ i j message, message ∈ channels i j → measure message = 0) :
    weight measure channels = 0 := by
  refine Finset.sum_eq_zero fun i _ => Finset.sum_eq_zero fun j _ => List.sum_eq_zero ?_
  intro value listed
  obtain ⟨message, membership, rfl⟩ := List.mem_map.mp listed
  exact nothing i j message membership

omit [DecidableEq Pid] in
theorem le_weight_of_mem {measure : Msg → ℤ} (nonneg : ∀ message, 0 ≤ measure message)
    {channels : Channels Pid Msg} {i j : Pid} {message : Msg}
    (membership : message ∈ channels i j) : measure message ≤ weight measure channels := by
  have nonnegQueue : ∀ i j, 0 ≤ ((channels i j).map measure).sum := by
    intro i j
    refine List.sum_nonneg fun value listed => ?_
    obtain ⟨other, -, rfl⟩ := List.mem_map.mp listed
    exact nonneg other
  have inQueue : measure message ≤ ((channels i j).map measure).sum := by
    refine List.single_le_sum ?_ _ (List.mem_map_of_mem membership)
    intro value listed
    obtain ⟨other, -, rfl⟩ := List.mem_map.mp listed
    exact nonneg other
  have inRow : ((channels i j).map measure).sum ≤ ∑ k, ((channels i k).map measure).sum :=
    Finset.single_le_sum (fun k _ => nonnegQueue i k) (Finset.mem_univ j)
  have inAll : ∑ k, ((channels i k).map measure).sum ≤ weight measure channels :=
    Finset.single_le_sum (f := fun i => ∑ k, ((channels i k).map measure).sum)
      (fun i _ => Finset.sum_nonneg fun k _ => nonnegQueue i k) (Finset.mem_univ i)
  exact inQueue.trans (inRow.trans inAll)

/-- A measure of the states of the processes and of the messages in flight. -/
def total {Process : Type*} (onProcess : Pid → Process → ℤ) (onMsg : Msg → ℤ)
    (proc : Pid → Process) (channels : Channels Pid Msg) : ℤ :=
  ∑ pid, onProcess pid (proc pid) + weight onMsg channels

theorem total_apply {Process : Type*} (onProcess : Pid → Process → ℤ) (onMsg : Msg → ℤ)
    (proc : Pid → Process) (channels : Channels Pid Msg) (pid : Pid) (process : Process)
    (sent : List (Pid × Msg)) :
    total onProcess onMsg (Function.update proc pid process) (channels.send pid sent) =
      total onProcess onMsg proc channels - onProcess pid (proc pid) + onProcess pid process +
        (sent.map fun pair => onMsg pair.2).sum := by
  simp only [total, sum_update, weight_send]
  ring

theorem total_update {Process : Type*} (onProcess : Pid → Process → ℤ) (onMsg : Msg → ℤ)
    (proc : Pid → Process) (channels : Channels Pid Msg) (pid : Pid) (process : Process) :
    total onProcess onMsg (Function.update proc pid process) channels =
      total onProcess onMsg proc channels - onProcess pid (proc pid) + onProcess pid process := by
  simp only [total, sum_update]
  ring

theorem total_take {Process : Type*} (onProcess : Pid → Process → ℤ) (onMsg : Msg → ℤ)
    (proc : Pid → Process) {channels : Channels Pid Msg} {source target : Pid} {message : Msg}
    {rest : List Msg} (head : channels source target = message :: rest) (process : Process) :
    total onProcess onMsg (Function.update proc target process)
        (channels.setQueue source target rest) =
      total onProcess onMsg proc channels - onProcess target (proc target) - onMsg message +
        onProcess target process := by
  simp only [total, sum_update, weight_tail _ _ head]
  ring

end Weight

end Network
