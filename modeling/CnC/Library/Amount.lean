import CnC.Library.Network

/-!
# Amounts in a network

What all processes and all messages in flight have together.  A step of a process touches its own
part and the messages which it takes and sends; `rest` is what it does not touch.
-/

namespace Network

variable {Pid Msg Process M : Type*} [Fintype Pid] [DecidableEq Pid] [AddCommMonoid M]

/-- The sum of a measure of the processes and one of the messages, which may depend on the
process and on the ends of the channel. -/
def amount (onProcess : Pid → Process → M) (onMsg : Pid → Pid → Msg → M) (proc : Pid → Process)
    (channels : Channels Pid Msg) : M :=
  ∑ pid, onProcess pid (proc pid) + ∑ i, ∑ j, ((channels i j).map (onMsg i j)).sum

theorem exists_rest_sum {Value : Type*} (measure : Pid → Value → M) (values : Pid → Value)
    (pid : Pid) : ∃ rest, ∀ value,
      ∑ i, measure i (Function.update values pid value i) = measure pid value + rest := by
  refine ⟨∑ i ∈ Finset.univ.erase pid, measure i (values i), fun value => ?_⟩
  rw [← Finset.add_sum_erase _ _ (Finset.mem_univ pid), Function.update_self]
  congr 1
  refine Finset.sum_congr rfl fun i membership => ?_
  rw [Function.update_of_ne (Finset.ne_of_mem_erase membership)]

theorem sum_sent (measure : Pid → Msg → M) (sent : List (Pid × Msg)) :
    ∑ j, (((sent.filter fun pair => pair.1 = j).map Prod.snd).map (measure j)).sum =
      (sent.map fun pair => measure pair.1 pair.2).sum := by
  induction sent with
  | nil => simp
  | cons pair rest inductionHypothesis =>
      have split (j : Pid) : ((((pair :: rest).filter fun pair => pair.1 = j).map
          Prod.snd).map (measure j)).sum = (if pair.1 = j then measure pair.1 pair.2 else 0) +
            (((rest.filter fun pair => pair.1 = j).map Prod.snd).map (measure j)).sum := by
        by_cases addressed : pair.1 = j
        · subst addressed
          simp
        · simp [addressed]
      simp only [split, Finset.sum_add_distrib, inductionHypothesis]
      simp

theorem sum_send (onMsg : Pid → Pid → Msg → M) (channels : Channels Pid Msg) (source : Pid)
    (sent : List (Pid × Msg)) :
    ∑ i, ∑ j, ((channels.send source sent i j).map (onMsg i j)).sum =
      ∑ i, ∑ j, ((channels i j).map (onMsg i j)).sum +
        (sent.map fun pair => onMsg source pair.1 pair.2).sum := by
  have rows (i : Pid) : ∑ j, ((channels.send source sent i j).map (onMsg i j)).sum =
      ∑ j, ((channels i j).map (onMsg i j)).sum +
        if i = source then (sent.map fun pair => onMsg source pair.1 pair.2).sum else 0 := by
    by_cases same : i = source
    · subst same
      simp only [Channels.send, if_true, List.map_append, List.sum_append,
        Finset.sum_add_distrib, sum_sent]
    · simp [Channels.send, same]
  simp [rows, Finset.sum_add_distrib]

theorem exists_rest_apply (onProcess : Pid → Process → M) (onMsg : Pid → Pid → Msg → M)
    (proc : Pid → Process) (channels : Channels Pid Msg) (pid : Pid) :
    ∃ rest, ∀ process sent,
      amount onProcess onMsg (Function.update proc pid process) (channels.send pid sent) =
        onProcess pid process + (sent.map fun pair => onMsg pid pair.1 pair.2).sum + rest := by
  obtain ⟨rest, split⟩ := exists_rest_sum onProcess proc pid
  refine ⟨rest + ∑ i, ∑ j, ((channels i j).map (onMsg i j)).sum, fun process sent => ?_⟩
  rw [amount, split, sum_send]
  abel

theorem exists_rest_take (onProcess : Pid → Process → M) (onMsg : Pid → Pid → Msg → M)
    (proc : Pid → Process) {channels : Channels Pid Msg} {source target : Pid} {message : Msg}
    {queue : List Msg} (head : channels source target = message :: queue) :
    ∃ rest, amount onProcess onMsg proc channels =
        onProcess target (proc target) + onMsg source target message + rest ∧
      ∀ process, amount onProcess onMsg (Function.update proc target process)
        (channels.setQueue source target queue) = onProcess target process + rest := by
  have asUpdate (messages : List Msg) : channels.setQueue source target messages =
      Function.update channels source (Function.update (channels source) target messages) := by
    funext i j
    by_cases first : i = source
    · subst first
      by_cases second : j = target
      · subst second
        simp [Channels.setQueue]
      · simp [Channels.setQueue, second]
    · simp [Channels.setQueue, first]
  obtain ⟨rest, split⟩ := exists_rest_sum onProcess proc target
  obtain ⟨rows, splitRows⟩ := exists_rest_sum
    (fun i (row : Pid → List Msg) => ∑ j, ((row j).map (onMsg i j)).sum) channels source
  obtain ⟨queues, splitQueues⟩ := exists_rest_sum
    (fun j (messages : List Msg) => (messages.map (onMsg source j)).sum) (channels source) target
  have messages (queue : List Msg) :
      ∑ i, ∑ j, ((channels.setQueue source target queue i j).map (onMsg i j)).sum =
        (queue.map (onMsg source target)).sum + queues + rows := by
    rw [asUpdate, splitRows, splitQueues]
  refine ⟨rest + ((queue.map (onMsg source target)).sum + queues + rows), ?_, fun process => ?_⟩
  · have before := messages (channels source target)
    have same := split (proc target)
    rw [Channels.setQueue_self, head, List.map_cons, List.sum_cons] at before
    rw [Function.update_eq_self] at same
    rw [amount, before, same]
    abel
  · rw [amount, split, messages]
    abel

omit [DecidableEq Pid] in
theorem amount_eq_zero {onProcess : Pid → Process → M} {onMsg : Pid → Pid → Msg → M}
    {proc : Pid → Process} {channels : Channels Pid Msg}
    (processes : ∀ pid, onProcess pid (proc pid) = 0) (empty : channels.Empty) :
    amount onProcess onMsg proc channels = 0 := by
  simp only [amount, processes, empty _ _, Finset.sum_const_zero, List.map_nil, List.sum_nil,
    add_zero]

omit [DecidableEq Pid] in
theorem le_amount (onProcess : Pid → Process → ℕ) (onMsg : Pid → Pid → Msg → ℕ)
    (proc : Pid → Process) (channels : Channels Pid Msg) (pid : Pid) :
    onProcess pid (proc pid) ≤ amount onProcess onMsg proc channels :=
  (Finset.single_le_sum (f := fun pid => onProcess pid (proc pid)) (fun _ _ => Nat.zero_le _)
    (Finset.mem_univ pid)).trans (Nat.le_add_right _ _)

omit [DecidableEq Pid] in
theorem le_amount_of_mem (onProcess : Pid → Process → ℕ) (onMsg : Pid → Pid → Msg → ℕ)
    (proc : Pid → Process) {channels : Channels Pid Msg} {i j : Pid} {message : Msg}
    (membership : message ∈ channels i j) :
    onMsg i j message ≤ amount onProcess onMsg proc channels := by
  have inQueue : onMsg i j message ≤ ((channels i j).map (onMsg i j)).sum :=
    List.le_sum_of_mem (List.mem_map_of_mem membership)
  have inRow : ((channels i j).map (onMsg i j)).sum ≤
      ∑ k, ((channels i k).map (onMsg i k)).sum :=
    Finset.single_le_sum (f := fun k => ((channels i k).map (onMsg i k)).sum)
      (fun _ _ => Nat.zero_le _) (Finset.mem_univ j)
  have inAll : ∑ k, ((channels i k).map (onMsg i k)).sum ≤
      ∑ i, ∑ k, ((channels i k).map (onMsg i k)).sum :=
    Finset.single_le_sum (f := fun i => ∑ k, ((channels i k).map (onMsg i k)).sum)
      (fun _ _ => Nat.zero_le _) (Finset.mem_univ i)
  exact (inQueue.trans (inRow.trans inAll)).trans (Nat.le_add_left _ _)

end Network
