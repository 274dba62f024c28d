import CnC.Flush.Distributor
import CnC.Library.Marker

/-!
# The PINGs and PONGs of a flush

`Client` is what holds for one client, and `Protocol` for all processes and the
PINGs and PONGs in the queues.  All counts of the current flush lie between the
number of flushes which have returned and the number of those started, which is
at most one more.
-/

namespace CnC.Flush

open Network Transition

variable {n : Nat} [NeZero n]

def clients (pid : Fin n) : Finset (Fin n) :=
  (Finset.univ.erase 0).erase pid

theorem card_clients {pid : Fin n} (client : pid ≠ 0) : ((clients pid).card : Int) = n - 2 := by
  have positive : 0 < n := Nat.pos_of_ne_zero (NeZero.ne n)
  have inside : pid ∈ (Finset.univ.erase 0 : Finset (Fin n)) :=
    Finset.mem_erase.mpr ⟨client, Finset.mem_univ pid⟩
  have several : 1 < n := by
    by_contra small
    exact client (Fin.ext (by have := pid.isLt; simp; omega))
  rw [clients, Finset.card_erase_of_mem inside, Finset.card_erase_of_mem (Finset.mem_univ 0),
    Finset.card_univ, Fintype.card_fin]
  omega

theorem mem_clients {pid i : Fin n} : i ∈ clients pid ↔ i ≠ pid ∧ i ≠ 0 := by
  simp [clients]

/-- Where the receiver of a client stands, and what it has received then. -/
def Recv.At (recv : Recv n) (pid : Fin n) (started : Nat) (marks : Fin n → Nat)
    (pinged reported : Nat) : Prop :=
  match recv with
  | .idle => pinged = marks 0
  | .ping => pinged + 1 = marks 0
  | .bcast => pinged + 1 = marks 0
  | .pong => pinged = marks 0 ∧ reported < started ∧
      (pinged = started ∨ ∃ i ∈ clients pid, marks i = started)
  | .push => False
  | _ => pinged = marks 0 ∧ reported < started ∧ ∀ i, i ≠ pid → marks i = started

/-- The invariant of a client.  `marks` counts the PINGs and PONGs it has
received from each process. -/
structure Client (started returned : Nat) (pid : Fin n) (process : Process n)
    (marks : Fin n → Nat) (pinged reported : Nat) : Prop where
  returned_le : returned ≤ reported
  reported_le : ∀ i, i ≠ pid → reported ≤ marks i
  reported_le_pinged : reported ≤ pinged
  marks_le : ∀ i, i ≠ pid → marks i ≤ started
  started_le : started ≤ returned + 1
  flushCount : process.flushCount = (n - 2) * pinged - ∑ i ∈ clients pid, (marks i : Int) +
    if process.recv = .pong then 1 else 0
  recv : process.recv.At pid started marks pinged reported

namespace Client

variable {started returned : Nat} {pid : Fin n} {process : Process n} {marks : Fin n → Nat}
  {pinged reported : Nat}

omit [NeZero n] in
theorem sum_increment {others : Finset (Fin n)} {source : Fin n} (membership : source ∈ others)
    (marks : Fin n → Nat) :
    ∑ i ∈ others, ((Function.update marks source (marks source + 1) i : Nat) : Int) =
      ∑ i ∈ others, (marks i : Int) + 1 := by
  rw [← Finset.add_sum_erase _ _ membership, ← Finset.add_sum_erase others _ membership]
  have unchanged : ∑ i ∈ others.erase source,
      ((Function.update marks source (marks source + 1) i : Nat) : Int) =
        ∑ i ∈ others.erase source, (marks i : Int) := by
    refine Finset.sum_congr rfl fun i inside => ?_
    rw [Function.update_of_ne (Finset.ne_of_mem_erase inside)]
  rw [unchanged, Function.update_self]
  push_cast
  ring

theorem all_of_sum (client : pid ≠ 0) (bounded : ∀ i ∈ clients pid, marks i ≤ started)
    (full : ∑ i ∈ clients pid, (marks i : Int) = (n - 2) * started) :
    ∀ i ∈ clients pid, marks i = started := by
  have constant : ∑ _i ∈ clients pid, (started : Int) = (n - 2) * started := by
    rw [Finset.sum_const, nsmul_eq_mul, card_clients client]
  have equal := (Finset.sum_eq_sum_iff_of_le
    (fun i inside => by exact_mod_cast bounded i inside)).mp (full.trans constant.symm)
  intro i inside
  exact_mod_cast equal i inside

theorem sum_of_all (client : pid ≠ 0) (all : ∀ i ∈ clients pid, marks i = started) :
    ∑ i ∈ clients pid, (marks i : Int) = (n - 2) * started := by
  rw [Finset.sum_congr rfl fun i inside => congrArg Nat.cast (all i inside), Finset.sum_const,
    nsmul_eq_mul, card_clients client]

theorem lt_sum (client : pid ≠ 0) (bounded : ∀ i ∈ clients pid, returned ≤ marks i)
    {source : Fin n} (membership : source ∈ clients pid) (later : returned < marks source) :
    (n - 2) * (returned : Int) < ∑ i ∈ clients pid, (marks i : Int) := by
  have constant : ∑ _i ∈ clients pid, (returned : Int) = (n - 2) * returned := by
    rw [Finset.sum_const, nsmul_eq_mul, card_clients client]
  rw [← constant]
  apply Finset.sum_lt_sum
  · exact fun i inside => by exact_mod_cast bounded i inside
  · exact ⟨source, membership, by exact_mod_cast later⟩

theorem congr (client : Client started returned pid process marks pinged reported)
    {next : Process n} (flushCount : next.flushCount = process.flushCount)
    (recv : next.recv = process.recv) :
    Client started returned pid next marks pinged reported :=
  { client with
    flushCount := by rw [flushCount, recv]; exact client.flushCount
    recv := by rw [recv]; exact client.recv }

theorem sum_update_host (marks : Fin n → Nat) (value : Nat) :
    ∑ i ∈ clients pid, ((Function.update marks 0 value i : Nat) : Int) =
      ∑ i ∈ clients pid, (marks i : Int) := by
  refine Finset.sum_congr rfl fun i inside => ?_
  rw [Function.update_of_ne (mem_clients.mp inside).2]

theorem bounds (client : Client started returned pid process marks pinged reported)
    {source : Fin n} (early : marks source < started) :
    (∀ i, i ≠ pid → reported ≤ Function.update marks source (marks source + 1) i) ∧
      ∀ i, i ≠ pid → Function.update marks source (marks source + 1) i ≤ started := by
  constructor
  · intro i different
    have before := client.reported_le i different
    by_cases same : i = source
    · subst same
      rw [Function.update_self]
      omega
    · rwa [Function.update_of_ne same]
  · intro i different
    by_cases same : i = source
    · subst same
      rw [Function.update_self]
      omega
    · rw [Function.update_of_ne same]
      exact client.marks_le i different

theorem ping (client : Client started returned pid process marks pinged reported)
    (idle : process.recv = .idle) (early : marks 0 < started) :
    Client started returned pid { process with recv := .ping }
      (Function.update marks 0 (marks 0 + 1)) pinged reported where
  returned_le := client.returned_le
  reported_le := (client.bounds early).1
  reported_le_pinged := client.reported_le_pinged
  marks_le := (client.bounds early).2
  started_le := client.started_le
  flushCount := by
    rw [sum_update_host]
    simpa [idle] using client.flushCount
  recv := by
    have at_ := client.recv
    simp only [idle, Recv.At] at at_
    simp [Recv.At, at_]

theorem pinged_lt (client : Client started returned pid process marks pinged reported)
    (early : pinged < started) : pinged = returned ∧ reported = returned ∧ started = returned + 1 := by
  have returned_le := client.returned_le
  have reported_le := client.reported_le_pinged
  have started_le := client.started_le
  omega

theorem pinged_le (client : Client started returned pid process marks pinged reported) :
    pinged ≤ marks 0 := by
  have at_ := client.recv
  cases recv : process.recv with
  | idle => simp only [recv, Recv.At] at at_; omega
  | ping => simp only [recv, Recv.At] at at_; omega
  | bcast => simp only [recv, Recv.At] at at_; omega
  | push => simp only [recv, Recv.At] at at_
  | pong => simp only [recv, Recv.At] at at_; omega
  | report => simp only [recv, Recv.At] at at_; omega
  | exchange => simp only [recv, Recv.At] at at_; omega
  | send nMsgs => simp only [recv, Recv.At] at at_; omega

theorem pingTwo (client : Client started returned pid process marks pinged reported)
    (isClient : pid ≠ 0) (two : n = 2) (idle : process.recv = .idle) (early : marks 0 < started) :
    Client started returned pid { process with flushCount := 1, recv := .pong }
      (Function.update marks 0 (marks 0 + 1)) (pinged + 1) reported := by
  have at_ := client.recv
  simp only [idle, Recv.At] at at_
  obtain ⟨isPinged, isReported, isStarted⟩ := client.pinged_lt (at_ ▸ early)
  have none_ : clients pid = ∅ := by
    have card := card_clients isClient
    rw [← Finset.card_eq_zero]
    omega
  refine ⟨client.returned_le, (client.bounds early).1, by omega, (client.bounds early).2,
    client.started_le, ?_, ?_⟩
  · have noOther : (n : Int) - 2 = 0 := by omega
    simp [none_, noOther]
  · simp only [Recv.At, Function.update_self]
    omega

theorem receivePong (client : Client started returned pid process marks pinged reported)
    {source : Fin n} (isOther : source ∈ clients pid) (idle : process.recv = .idle)
    (early : marks source < started) :
    Client started returned pid { process with recv := .pong }
      (Function.update marks source (marks source + 1)) pinged reported := by
  have at_ := client.recv
  simp only [idle, Recv.At] at at_
  have before := client.reported_le source (mem_clients.mp isOther).1
  have returned_le := client.returned_le
  have started_le := client.started_le
  refine ⟨client.returned_le, (client.bounds early).1, client.reported_le_pinged,
    (client.bounds early).2, client.started_le, ?_, ?_⟩
  · have count := client.flushCount
    rw [sum_increment isOther]
    simp only [idle, reduceCtorEq, if_false] at count
    simp only [if_true]
    rw [count]
    ring
  · simp only [Recv.At]
    refine ⟨?_, by omega, .inr ⟨source, isOther, ?_⟩⟩
    · rw [Function.update_of_ne (mem_clients.mp isOther).2.symm]
      exact at_
    · rw [Function.update_self]
      omega

theorem test (client : Client started returned pid process marks pinged reported)
    (pinging : process.recv = .ping) (pending : Bool) :
    Client started returned pid { process.countPending pending with recv := .bcast }
      marks pinged reported := by
  have at_ := client.recv
  have count := client.flushCount
  simp only [pinging, Recv.At] at at_
  refine { client with flushCount := ?_, recv := ?_ }
  · simpa [Process.countPending, pinging] using count
  · simpa [Recv.At] using at_

theorem bcastLast (client : Client started returned pid process marks pinged reported)
    (isClient : pid ≠ 0) (sending : process.recv = .bcast)
    (last : process.flushCount = 2 - (n : Int)) :
    Client started returned pid { process with flushCount := 1, recv := .pong }
      marks (pinged + 1) reported := by
  have at_ := client.recv
  have count := client.flushCount
  have bound := client.marks_le 0 isClient.symm
  simp only [sending, Recv.At] at at_
  simp only [sending, reduceCtorEq, if_false] at count
  obtain ⟨isPinged, isReported, isStarted⟩ := client.pinged_lt (by omega)
  refine ⟨client.returned_le, client.reported_le, by omega, client.marks_le, client.started_le,
    ?_, ?_⟩
  · simp only [if_true]
    rw [last] at count
    push_cast
    linarith
  · simp only [Recv.At]
    omega

theorem bcast (client : Client started returned pid process marks pinged reported)
    (sending : process.recv = .bcast) :
    Client started returned pid
      { process with flushCount := process.flushCount + (n - 2), recv := .idle }
      marks (pinged + 1) reported := by
  have at_ := client.recv
  have count := client.flushCount
  have bound := client.reported_le_pinged
  simp only [sending, Recv.At] at at_
  simp only [sending, reduceCtorEq, if_false] at count
  refine ⟨client.returned_le, client.reported_le, by omega, client.marks_le, client.started_le,
    ?_, ?_⟩
  · simp only [reduceCtorEq, if_false]
    rw [count]
    push_cast
    ring
  · simpa [Recv.At] using at_

theorem complete_of_zero (client : Client started returned pid process marks pinged reported)
    (isClient : pid ≠ 0) (counting : process.recv = .pong) (zero : process.flushCount - 1 = 0) :
    ∀ i, i ≠ pid → marks i = started := by
  obtain ⟨isMark, late, some_⟩ : pinged = marks 0 ∧ reported < started ∧
      (pinged = started ∨ ∃ i ∈ clients pid, marks i = started) := by
    simpa [counting, Recv.At] using client.recv
  have sum : ∑ i ∈ clients pid, (marks i : Int) = (n - 2) * pinged := by
    have count := client.flushCount
    simp only [counting, if_true] at count
    linarith
  have returned_le := client.returned_le
  have isPinged : pinged = started := by
    rcases some_ with isStarted | ⟨source, isOther, isStarted⟩
    · exact isStarted
    by_contra different
    have bound := client.marks_le 0 isClient.symm
    obtain ⟨isReturned, -, -⟩ := client.pinged_lt (by omega)
    have strict := lt_sum isClient (fun i inside => returned_le.trans
      (client.reported_le i (mem_clients.mp inside).1)) isOther
      (by omega : returned < marks source)
    rw [sum, isReturned] at strict
    exact lt_irrefl _ strict
  intro i different
  by_cases host : i = 0
  · subst host
    omega
  · rw [isPinged] at sum
    exact all_of_sum isClient (fun i inside => client.marks_le i (mem_clients.mp inside).1) sum i
      (mem_clients.mpr ⟨different, host⟩)

theorem pong (client : Client started returned pid process marks pinged reported)
    (isClient : pid ≠ 0) (counting : process.recv = .pong) :
    Client started returned pid
      { process with
        flushCount := process.flushCount - 1
        recv := if process.flushCount - 1 = 0 then .report else .idle } marks pinged reported := by
  have at_ := client.recv
  have count := client.flushCount
  simp only [counting, Recv.At] at at_
  simp only [counting, if_true] at count
  refine { client with flushCount := ?_, recv := ?_ }
  · have notPong : (if process.flushCount - 1 = 0 then Recv.report else Recv.idle : Recv n) ≠
        .pong := by
      split <;> simp
    simp only [if_neg notPong]
    linarith
  · by_cases zero : process.flushCount - 1 = 0
    · simp only [if_pos zero, Recv.At]
      exact ⟨at_.1, at_.2.1, client.complete_of_zero isClient counting zero⟩
    · simp only [if_neg zero, Recv.At]
      exact at_.1

def Reporting (recv : Recv n) : Prop :=
  recv = .report ∨ recv = .exchange ∨ ∃ nMsgs, recv = .send nMsgs

theorem reporting (client : Client started returned pid process marks pinged reported)
    (isReporting : Reporting process.recv) :
    pinged = marks 0 ∧ reported < started ∧ ∀ i, i ≠ pid → marks i = started := by
  have at_ := client.recv
  rcases isReporting with recv | recv | ⟨nMsgs, recv⟩ <;> simpa [recv, Recv.At] using at_

theorem report (client : Client started returned pid process marks pinged reported)
    (isReporting : Reporting process.recv) {next : Process n}
    (flushCount : next.flushCount = process.flushCount) (nextReporting : Reporting next.recv) :
    Client started returned pid next marks pinged reported := by
  have at_ := client.reporting isReporting
  have count := client.flushCount
  have notPong : ∀ recv : Recv n, Reporting recv → recv ≠ .pong := by
    rintro recv (rfl | rfl | ⟨nMsgs, rfl⟩) <;> simp
  refine { client with flushCount := ?_, recv := ?_ }
  · rw [if_neg (notPong _ isReporting)] at count
    rw [flushCount, if_neg (notPong _ nextReporting), count]
  · rcases nextReporting with recv | recv | ⟨nMsgs, recv⟩ <;> simpa [recv, Recv.At] using at_

theorem send (client : Client started returned pid process marks pinged reported)
    (isClient : pid ≠ 0) {nMsgs : List (Count n)} (sending : process.recv = .send nMsgs) :
    Client started returned pid { process with recv := .idle } marks pinged (reported + 1) := by
  obtain ⟨isMark, late, all⟩ := client.reporting (.inr (.inr ⟨nMsgs, sending⟩))
  have count := client.flushCount
  have returned_le := client.returned_le
  have pingedAll := all 0 isClient.symm
  refine ⟨by omega, ?_, by omega, client.marks_le, client.started_le, ?_, isMark⟩
  · intro i different
    rw [all i different]
    omega
  · simpa [sending] using count

theorem settled (client : Client started returned pid process marks pinged reported)
    (isClient : pid ≠ 0) (outside : reported = started) :
    pinged = started ∧ (∀ i, i ≠ pid → marks i = started) ∧ process.recv = .idle ∧
      process.flushCount = 0 := by
  have all : ∀ i, i ≠ pid → marks i = started := by
    intro i different
    have lower := client.reported_le i different
    have upper := client.marks_le i different
    omega
  have markHost := all 0 isClient.symm
  have bound := client.reported_le_pinged
  have at_ := client.recv
  have idle : process.recv = .idle := by
    cases recv : process.recv with
    | idle => rfl
    | ping => simp only [recv, Recv.At] at at_; omega
    | bcast => simp only [recv, Recv.At] at at_; omega
    | push => simp only [recv, Recv.At] at at_
    | pong => simp only [recv, Recv.At] at at_; omega
    | report => simp only [recv, Recv.At] at at_; omega
    | exchange => simp only [recv, Recv.At] at at_; omega
    | send nMsgs => simp only [recv, Recv.At] at at_; omega
  simp only [idle, Recv.At] at at_
  refine ⟨by omega, all, idle, ?_⟩
  have count := client.flushCount
  rw [sum_of_all isClient fun i inside => all i (mem_clients.mp inside).1] at count
  have isPinged : (pinged : Int) = started := by omega
  simp only [idle, reduceCtorEq, if_false, isPinged] at count
  linarith

theorem start (client : Client started returned pid process marks pinged reported)
    (isClient : pid ≠ 0) (outside : started = returned) :
    Client (started + 1) returned pid process marks pinged reported := by
  have returned_le := client.returned_le
  have upper := client.marks_le 0 isClient.symm
  have lower := client.reported_le 0 isClient.symm
  obtain ⟨isPinged, all, idle, -⟩ := client.settled isClient (by omega)
  refine { client with marks_le := ?_, started_le := by omega, recv := ?_ }
  · exact fun i different => (client.marks_le i different).trans (Nat.le_succ started)
  · have at_ := client.recv
    simp only [idle, Recv.At] at at_ ⊢
    exact at_

theorem finish (client : Client started returned pid process marks pinged reported)
    (isReported : reported = started) (inside : started = returned + 1) :
    Client started (returned + 1) pid process marks pinged reported :=
  { client with
    returned_le := by omega
    started_le := by omega }

end Client

/-- PINGs and PONGs are markers. -/
def stamp : Msg n → Option Nat
  | .app app => some app.epoch
  | _ => none

def State.sentTo (s : State n) (source target : Fin n) : Nat :=
  if source = 0 then s.history.pinged 0
  else if target = 0 then s.history.reported source
  else s.history.pinged source

def Main.popped : Main → Nat
  | .outside => 0
  | .sync popped => popped

def Main.At (main : Main) (n started returned : Nat) : Prop :=
  match main with
  | .outside => started = returned
  | .sync popped => started = returned + 1 ∧ popped ≤ n - 1

/-- The PINGs and PONGs in the queues are those which were sent and not yet
received.  Clients send each other PONGs without a number. -/
structure Lines (chan : Channels (Fin n) (Msg n)) (marks sentTo : Fin n → Fin n → Nat) :
    Prop where
  self : ∀ i, chan i i = []
  ping : ∀ i j, .ping ∈ chan i j → i = 0
  pong : ∀ i j nMsgs, .pong nMsgs ∈ chan i j → i ≠ 0 ∧ (j ≠ 0 → nMsgs = [])
  marked : ∀ i j, i ≠ j → marks j i + markers stamp (chan i j) = sentTo i j

namespace Lines

variable {chan next : Channels (Fin n) (Msg n)} {marks sentTo : Fin n → Fin n → Nat}

theorem append (lines : Lines chan marks sentTo) (source : Fin n) (receivers : List (Fin n))
    (message : Msg n) {nextSentTo : Fin n → Fin n → Nat}
    (queues : ∀ i j, next i j =
      if i = source ∧ j ∈ receivers then chan i j ++ [message] else chan i j)
    (notSelf : source ∉ receivers) (ping : message = .ping → source = 0)
    (pong : ∀ nMsgs, message = .pong nMsgs → source ≠ 0 ∧ ∀ j ∈ receivers, j ≠ 0 → nMsgs = [])
    (sent : ∀ i j, i ≠ j → nextSentTo i j = sentTo i j +
      if (i = source ∧ j ∈ receivers) ∧ (stamp message).isNone then 1 else 0) :
    Lines next marks nextSentTo where
  self i := by
    have notBoth : ¬ (i = source ∧ i ∈ receivers) := fun both => notSelf (both.1 ▸ both.2)
    rw [queues, if_neg notBoth]
    exact lines.self i
  ping i j membership := by
    rw [queues] at membership
    split at membership
    · rename_i addressed
      rcases List.mem_append.mp membership with old | new
      · exact lines.ping i j old
      · rw [addressed.1]
        exact ping (List.mem_singleton.mp new).symm
    · exact lines.ping i j membership
  pong i j nMsgs membership := by
    rw [queues] at membership
    split at membership
    · rename_i addressed
      rcases List.mem_append.mp membership with old | new
      · exact lines.pong i j nMsgs old
      · obtain ⟨isClient, empty⟩ := pong nMsgs (List.mem_singleton.mp new).symm
        exact ⟨addressed.1 ▸ isClient, empty j addressed.2⟩
    · exact lines.pong i j nMsgs membership
  marked i j different := by
    have before := lines.marked i j different
    rw [queues, sent i j different]
    by_cases addressed : i = source ∧ j ∈ receivers
    · rw [if_pos addressed, markers_append]
      by_cases marker : (stamp message).isNone = true
      · rw [if_pos marker, if_pos ⟨addressed, marker⟩]
        omega
      · rw [if_neg marker, if_neg fun both => marker both.2]
        omega
    · simp [addressed, before]

theorem congr (lines : Lines chan marks sentTo) {nextSentTo : Fin n → Fin n → Nat}
    (same : ∀ i j, i ≠ j → nextSentTo i j = sentTo i j) : Lines chan marks nextSentTo :=
  { lines with
    marked := fun i j different => by
      rw [same i j different]
      exact lines.marked i j different }

theorem takeApp (lines : Lines chan marks sentTo) {source target : Fin n} {app : App n}
    {rest : List (Msg n)} (head : chan source target = .app app :: rest) :
    Lines (chan.setQueue source target rest) marks sentTo where
  self i := by
    by_cases same : i = source ∧ i = target
    · obtain ⟨rfl, rfl⟩ := same
      rw [lines.self i] at head
      cases head
    · rw [Channels.setQueue_other _ _ same]
      exact lines.self i
  ping i j membership := lines.ping i j (Channels.mem_of_mem_setQueue_tail head membership)
  pong i j nMsgs membership :=
    lines.pong i j nMsgs (Channels.mem_of_mem_setQueue_tail head membership)
  marked i j different := by
    have before := lines.marked i j different
    by_cases same : i = source ∧ j = target
    · obtain ⟨rfl, rfl⟩ := same
      rw [head, markers_cons_stamped (rfl : stamp (.app app) = some app.epoch)] at before
      rwa [Channels.setQueue_same]
    · rwa [Channels.setQueue_other _ _ same]

theorem take (lines : Lines chan marks sentTo) {source target : Fin n} {message : Msg n}
    {rest : List (Msg n)} (head : chan source target = message :: rest)
    (marker : stamp message = none) :
    Lines (chan.setQueue source target rest)
        (Function.update marks target
          (Function.update (marks target) source (marks target source + 1))) sentTo ∧
      source ≠ target ∧ marks target source < sentTo source target := by
  have notSame : source ≠ target := by
    rintro rfl
    rw [lines.self source] at head
    cases head
  have here := lines.marked source target notSame
  rw [head, markers_cons_marker marker] at here
  refine ⟨⟨?_, ?_, ?_, ?_⟩, notSame, by omega⟩
  · intro i
    have notBoth : ¬ (i = source ∧ i = target) := fun both => notSame (both.1.symm.trans both.2)
    rw [Channels.setQueue_other _ _ notBoth]
    exact lines.self i
  · exact fun i j membership => lines.ping i j (Channels.mem_of_mem_setQueue_tail head membership)
  · exact fun i j nMsgs membership =>
      lines.pong i j nMsgs (Channels.mem_of_mem_setQueue_tail head membership)
  · intro i j different
    have before := lines.marked i j different
    by_cases same : i = source ∧ j = target
    · obtain ⟨rfl, rfl⟩ := same
      rw [Channels.setQueue_same, Function.update_self, Function.update_self]
      omega
    · rw [Channels.setQueue_other _ _ same]
      by_cases toTarget : j = target
      · subst toTarget
        have notSource : i ≠ source := fun fromSource => same ⟨fromSource, rfl⟩
        rwa [Function.update_self, Function.update_of_ne notSource]
      · rwa [Function.update_of_ne toTarget]

end Lines

structure Protocol (s : State n) : Prop where
  lines : Lines s.chan s.history.marks s.sentTo
  client : ∀ j, j ≠ 0 → Client (s.history.pinged 0) s.results.length j (s.proc j)
    (s.history.marks j) (s.history.pinged j) (s.history.reported j)
  host : (s.proc 0).recv = .idle ∨ (s.proc 0).recv = .push
  main : s.main.At n (s.history.pinged 0) s.results.length
  answered : ∀ j, j ≠ 0 → s.results.length ≤ s.history.marks 0 j
  sync : ∑ j ∈ Finset.univ.erase 0, (s.history.marks 0 j : Int) =
    (n - 1) * s.results.length + s.sync + s.main.popped +
      if (s.proc 0).recv = .push then 1 else 0

namespace Protocol

variable {s : State n}

theorem send (protocol : Protocol s) {source target : Fin n} (different : source ≠ target)
    (app : App n) (sent : List (App n)) :
    Protocol { s with
      chan := s.chan.send source [(target, .app app)]
      history := { s.history with sent := sent } } := by
  refine { protocol with lines := ?_ }
  refine protocol.lines.append source [target] (.app app) ?_ ?_ ?_ ?_ ?_
  · simpa using send_singleton s.chan source target (.app app)
  · simpa using different
  · exact fun impossible => by cases impossible
  · exact fun nMsgs impossible => by cases impossible
  · simp [stamp, State.sentTo]

theorem setClient (protocol : Protocol s) {pid : Fin n} (isClient : pid ≠ 0) {process : Process n}
    (client : Client (s.history.pinged 0) s.results.length pid process (s.history.marks pid)
      (s.history.pinged pid) (s.history.reported pid)) :
    Protocol (s.setProc pid process) := by
  have hostSame : Function.update s.proc pid process 0 = s.proc 0 :=
    Function.update_of_ne isClient.symm _ _
  refine { protocol with client := ?_, host := ?_, sync := ?_ }
  · intro j otherClient
    by_cases same : j = pid
    · subst same
      simpa [State.setProc] using client
    · simpa [State.setProc, same] using protocol.client j otherClient
  · simpa only [State.setProc, hostSame] using protocol.host
  · simpa only [State.setProc, hostSame] using protocol.sync

theorem receiveApp (protocol : Protocol s) {source target : Fin n} {app : App n}
    {rest : List (Msg n)} (head : s.chan source target = .app app :: rest) :
    Protocol (s.recvMsg source target rest (.app app)) := by
  have lines := protocol.lines.takeApp head
  by_cases host : target = 0
  · subst host
    refine { protocol with lines := lines, client := ?_, host := ?_, sync := ?_ }
    · intro j isClient
      simpa [State.recvMsg, State.setProc, History.receive, isClient] using
        protocol.client j isClient
    · simpa [State.recvMsg, State.setProc] using protocol.host
    · simpa [State.recvMsg, State.setProc, History.receive] using protocol.sync
  · have changed := protocol.setClient host ((protocol.client target host).congr rfl rfl :
      Client _ _ _ { s.proc target with
        nMsgsRecvd := .message app :: (s.proc target).nMsgsRecvd } _ _ _)
    exact { changed with lines := lines }

theorem changeClient (protocol : Protocol s) {pid : Fin n} (isClient : pid ≠ 0)
    {next : State n} {process : Process n} (proc : next.proc = Function.update s.proc pid process)
    (sync : next.sync = s.sync) (main : next.main = s.main) (results : next.results = s.results)
    (lines : Lines next.chan next.history.marks next.sentTo)
    (client : Client (s.history.pinged 0) s.results.length pid process (next.history.marks pid)
      (next.history.pinged pid) (next.history.reported pid))
    (others : ∀ j, j ≠ pid → next.history.marks j = s.history.marks j ∧
      next.history.pinged j = s.history.pinged j ∧
      next.history.reported j = s.history.reported j) : Protocol next := by
  have hostSame : next.proc 0 = s.proc 0 := by
    rw [proc]
    exact Function.update_of_ne isClient.symm _ _
  obtain ⟨hostMarks, started, -⟩ := others 0 isClient.symm
  refine ⟨lines, ?_, ?_, ?_, ?_, ?_⟩
  · intro j otherClient
    rw [started, results, proc]
    by_cases same : j = pid
    · subst same
      rw [Function.update_self]
      exact client
    · obtain ⟨sameMarks, samePinged, sameReported⟩ := others j same
      rw [Function.update_of_ne same, sameMarks, samePinged, sameReported]
      exact protocol.client j otherClient
  · rw [hostSame]
    exact protocol.host
  · rw [main, started, results]
    exact protocol.main
  · rw [results, hostMarks]
    exact protocol.answered
  · rw [hostMarks, results, sync, main, hostSame]
    exact protocol.sync

theorem receivePing (protocol : Protocol s) {source target : Fin n} {rest : List (Msg n)}
    (idle : (s.proc target).recv = .idle) (head : s.chan source target = .ping :: rest) :
    Protocol (s.recvMsg source target rest .ping) := by
  obtain rfl : source = 0 := protocol.lines.ping source target (head ▸ List.mem_cons_self)
  obtain ⟨lines, different, early⟩ := protocol.lines.take head rfl
  have isClient : target ≠ 0 := different.symm
  have early : s.history.marks target 0 < s.history.pinged 0 := by
    simpa [State.sentTo] using early
  have client := protocol.client target isClient
  by_cases two : n = 2
  · simp only [State.recvMsg, if_pos two]
    refine protocol.changeClient isClient rfl rfl rfl rfl ?_ ?_ ?_
    · refine lines.congr fun i j notSame => ?_
      by_cases fromTarget : i = target
      · subst fromTarget
        have toHost : j = 0 := by
          by_contra toClient
          have others : j ∈ clients i := mem_clients.mpr ⟨notSame.symm, toClient⟩
          have card := card_clients isClient
          have positive := Finset.card_pos.mpr ⟨j, others⟩
          omega
        simp [State.sentTo, History.ping, History.mark, isClient, toHost]
      · simp [State.sentTo, History.ping, History.mark, isClient.symm, fromTarget]
    · simpa [State.setProc, History.ping, History.mark] using
        client.pingTwo isClient two idle early
    · intro j other
      simp [History.ping, History.mark, other]
  · simp only [State.recvMsg, if_neg two]
    refine protocol.changeClient isClient rfl rfl rfl rfl ?_ ?_ ?_
    · exact lines.congr fun i j notSame => rfl
    · simpa [State.setProc, History.mark] using client.ping idle early
    · intro j other
      simp [History.mark, other]

theorem receivePong (protocol : Protocol s) {source target : Fin n} {nMsgs : List (Count n)}
    {rest : List (Msg n)} (isClient : target ≠ 0) (idle : (s.proc target).recv = .idle)
    (head : s.chan source target = .pong nMsgs :: rest) :
    Protocol (s.recvMsg source target rest (.pong nMsgs)) := by
  have fromClient := (protocol.lines.pong source target nMsgs (head ▸ List.mem_cons_self)).1
  obtain ⟨lines, different, early⟩ := protocol.lines.take head rfl
  have sender := protocol.client source fromClient
  have early : s.history.marks target source < s.history.pinged 0 := by
    have upper := sender.marks_le 0 fromClient.symm
    have bound := sender.pinged_le
    simp only [State.sentTo, if_neg fromClient, if_neg isClient] at early
    omega
  simp only [State.recvMsg, if_pos isClient]
  refine protocol.changeClient isClient rfl rfl rfl rfl ?_ ?_ ?_
  · exact lines.congr fun i j notSame => rfl
  · simpa [State.setProc, History.mark] using
      (protocol.client target isClient).receivePong (mem_clients.mpr ⟨different, fromClient⟩) idle
        early
  · intro j other
    simp [History.mark, other]

theorem receiveNumber (protocol : Protocol s) {source : Fin n} {nMsgs : List (Count n)}
    {rest : List (Msg n)} (idle : (s.proc 0).recv = .idle)
    (head : s.chan source 0 = .pong nMsgs :: rest) :
    Protocol (s.recvMsg source 0 rest (.pong nMsgs)) := by
  have fromClient := (protocol.lines.pong source 0 nMsgs (head ▸ List.mem_cons_self)).1
  obtain ⟨lines, -, -⟩ := protocol.lines.take head rfl
  have inside : source ∈ (Finset.univ.erase 0 : Finset (Fin n)) :=
    Finset.mem_erase.mpr ⟨fromClient, Finset.mem_univ source⟩
  simp only [State.recvMsg, ne_eq, not_true_eq_false, if_false]
  refine ⟨lines.congr fun _ _ _ => rfl, ?_, ?_, protocol.main, ?_, ?_⟩
  · intro j isClient
    simpa [State.setProc, History.mark, isClient] using protocol.client j isClient
  · exact .inr (by simp [State.setProc])
  · intro j isClient
    have before := protocol.answered j isClient
    by_cases same : j = source
    · subst same
      simp only [History.mark, State.setProc, Function.update_self]
      omega
    · simpa [History.mark, State.setProc, same] using before
  · have before := protocol.sync
    simp only [idle, reduceCtorEq, if_false] at before
    simp only [History.mark, State.setProc, Function.update_self, if_true]
    rw [Client.sum_increment inside, before]
    ring

theorem resumeTest (protocol : Protocol s) {pid : Fin n} (isClient : pid ≠ 0)
    (pinging : (s.proc pid).recv = .ping) (pending : Bool) :
    Protocol (s.setProc pid { (s.proc pid).countPending pending with recv := .bcast }) :=
  protocol.setClient isClient ((protocol.client pid isClient).test pinging pending)

theorem pingLines (protocol : Protocol s) {pid : Fin n} (isClient : pid ≠ 0) :
    Lines (s.chan.post pid ((others pid).filter (· ≠ 0)) (.pong [])) s.history.marks
      fun i j => s.sentTo i j + if (i = pid ∧ j ∈ (others pid).filter (· ≠ 0)) then 1 else 0 := by
  refine protocol.lines.append pid ((others pid).filter (· ≠ 0)) (.pong []) ?_ ?_ ?_ ?_ ?_
  · exact post_eq ((nodup_others pid).filter _) s.chan pid (.pong [])
  · simp
  · exact fun impossible => by cases impossible
  · intro nMsgs same
    cases same
    exact ⟨isClient, fun _ _ _ => rfl⟩
  · simp [stamp]

theorem sentTo_ping {pid : Fin n} (isClient : pid ≠ 0) {next : State n}
    (history : next.history = s.history.ping pid) (i j : Fin n) (different : i ≠ j) :
    next.sentTo i j =
      s.sentTo i j + if (i = pid ∧ j ∈ (others pid).filter (· ≠ 0)) then 1 else 0 := by
  simp only [State.sentTo, history, History.ping, Function.update_of_ne isClient.symm]
  by_cases fromHost : i = 0
  · subst fromHost
    simp [isClient.symm]
  · by_cases toHost : j = 0
    · simp [fromHost, toHost]
    · by_cases same : i = pid
      · subst same
        simp [fromHost, toHost, different.symm]
      · simp [fromHost, toHost, same]

theorem resumeBcast (protocol : Protocol s) {pid : Fin n} (isClient : pid ≠ 0)
    (sending : (s.proc pid).recv = .bcast) {next : State n} {pending : Bool}
    (resumed : s.resume pid pending = some next) : Protocol next := by
  have client := protocol.client pid isClient
  have lines := protocol.pingLines isClient
  simp only [State.resume, sending] at resumed
  split at resumed
  · rename_i last
    cases resumed
    refine protocol.changeClient isClient rfl rfl rfl rfl ?_ ?_ ?_
    · exact lines.congr (sentTo_ping isClient rfl)
    · simpa [State.setProc, History.ping] using client.bcastLast isClient sending last
    · intro j other
      simp [State.setProc, History.ping, other]
  · cases resumed
    refine protocol.changeClient isClient rfl rfl rfl rfl ?_ ?_ ?_
    · exact lines.congr (sentTo_ping isClient rfl)
    · simpa [State.setProc, History.ping] using client.bcast sending
    · intro j other
      simp [State.setProc, History.ping, other]

theorem resumeSend (protocol : Protocol s) {pid : Fin n} (isClient : pid ≠ 0)
    {nMsgs : List (Count n)} (sending : (s.proc pid).recv = .send nMsgs) :
    Protocol { s.setProc pid { s.proc pid with recv := .idle } with
      chan := s.chan.send pid [(0, .pong nMsgs)]
      history := s.history.report pid } := by
  have client := protocol.client pid isClient
  refine protocol.changeClient isClient rfl rfl rfl rfl ?_ ?_ ?_
  · refine protocol.lines.append pid [0] (.pong nMsgs) ?_ ?_ ?_ ?_ ?_
    · simpa using send_singleton s.chan pid 0 (.pong nMsgs)
    · simpa using isClient
    · exact fun impossible => by cases impossible
    · exact fun _ _ => ⟨isClient, fun j toHost => by simp [List.mem_singleton.mp toHost]⟩
    · intro i j different
      simp only [State.sentTo, History.report, stamp]
      by_cases fromHost : i = 0
      · subst fromHost
        simp [isClient.symm]
      · by_cases toHost : j = 0
        · by_cases same : i = pid <;> simp [fromHost, toHost, same, isClient]
        · simp [fromHost, toHost]
  · simpa [History.report] using client.send isClient sending
  · intro j other
    simp [History.report, other]

theorem resumePush (protocol : Protocol s) (pushing : (s.proc 0).recv = .push) :
    Protocol { s.setProc 0 { s.proc 0 with recv := .idle } with sync := s.sync + 1 } := by
  refine { protocol with client := ?_, host := ?_, sync := ?_ }
  · intro j isClient
    simpa [State.setProc, isClient] using protocol.client j isClient
  · exact .inl (by simp [State.setProc])
  · have before := protocol.sync
    simp only [pushing, if_true] at before
    simp only [State.setProc, Function.update_self, reduceCtorEq, if_false]
    push_cast
    linarith

theorem flush (protocol : Protocol s) (outside : s.main = .outside) :
    Protocol { s with
      chan := s.chan.post 0 (others 0) .ping
      main := .sync 0
      history := s.history.ping 0 } := by
  have main := protocol.main
  simp only [outside, Main.At] at main
  refine ⟨?_, ?_, protocol.host, ?_, protocol.answered, ?_⟩
  · refine protocol.lines.append 0 (others 0) .ping ?_ ?_ ?_ ?_ ?_
    · exact post_eq (nodup_others 0) s.chan 0 .ping
    · simp
    · exact fun _ => rfl
    · exact fun nMsgs impossible => by cases impossible
    · intro i j different
      by_cases fromHost : i = 0
      · subst fromHost
        simp [State.sentTo, History.ping, stamp, different.symm]
      · simp [State.sentTo, History.ping, fromHost]
  · intro j isClient
    simpa [History.ping, isClient] using (protocol.client j isClient).start isClient main
  · simp [Main.At, History.ping, main]
  · have before := protocol.sync
    simp only [outside, Main.popped] at before
    simpa [Main.popped, History.ping] using before

theorem pop (protocol : Protocol s) {popped : Nat} (syncing : s.main = .sync popped)
    (some_ : popped < n - 1 ∧ 0 < s.sync) :
    Protocol { s with sync := s.sync - 1, main := .sync (popped + 1) } := by
  have main := protocol.main
  have before := protocol.sync
  simp only [syncing, Main.At] at main
  simp only [syncing, Main.popped] at before
  refine { protocol with main := ?_, sync := ?_ }
  · simp only [Main.At]
    omega
  · simp only [Main.popped]
    rw [before]
    have positive : ((s.sync - 1 : Nat) : Int) = s.sync - 1 := by omega
    rw [positive]
    push_cast
    ring

theorem sum_const (value : Nat) :
    ∑ _j ∈ (Finset.univ.erase 0 : Finset (Fin n)), (value : Int) = (n - 1) * value := by
  rw [Finset.sum_const, nsmul_eq_mul, Finset.card_erase_of_mem (Finset.mem_univ 0),
    Finset.card_univ, Fintype.card_fin]
  push_cast [Nat.cast_sub (Nat.one_le_iff_ne_zero.mpr (NeZero.ne n))]
  ring

theorem all_reported (protocol : Protocol s) {popped : Nat} (syncing : s.main = .sync popped)
    (all : ¬ popped < n - 1) :
    (∀ j, j ≠ 0 → s.history.marks 0 j = s.history.pinged 0 ∧
      s.history.reported j = s.history.pinged 0) ∧ s.sync = 0 ∧ (s.proc 0).recv = .idle := by
  have main := protocol.main
  have before := protocol.sync
  simp only [syncing, Main.At] at main
  simp only [syncing, Main.popped] at before
  have positive : 0 < n := Nat.pos_of_ne_zero (NeZero.ne n)
  have bounds : ∀ j, j ≠ 0 → s.history.marks 0 j ≤ s.history.reported j ∧
      s.history.reported j ≤ s.history.pinged 0 := by
    intro j isClient
    have sent := protocol.lines.marked j 0 isClient
    simp only [State.sentTo, if_neg isClient, if_true] at sent
    have client := protocol.client j isClient
    have upper := client.marks_le 0 isClient.symm
    have lower := client.reported_le 0 isClient.symm
    omega
  have constant := sum_const (n := n) (s.history.pinged 0)
  have atMost : ∑ j ∈ Finset.univ.erase 0, (s.history.marks 0 j : Int) ≤
      ∑ _j ∈ (Finset.univ.erase 0 : Finset (Fin n)), (s.history.pinged 0 : Int) := by
    refine Finset.sum_le_sum fun j inside => ?_
    have bound := bounds j (Finset.ne_of_mem_erase inside)
    exact_mod_cast bound.1.trans bound.2
  have popped_eq : (popped : Int) = n - 1 := by omega
  have isStarted : (s.history.pinged 0 : Int) = s.results.length + 1 := by exact_mod_cast main.1
  have pushes : (0 : Int) ≤ if (s.proc 0).recv = .push then 1 else 0 := by split <;> decide
  have syncs : (0 : Int) ≤ s.sync := Int.natCast_nonneg s.sync
  rw [constant, before, popped_eq, isStarted] at atMost
  have nothing : (s.sync : Int) = 0 ∧
      (if (s.proc 0).recv = .push then (1 : Int) else 0) = 0 := by
    constructor <;> nlinarith
  have full : ∑ j ∈ Finset.univ.erase 0, (s.history.marks 0 j : Int) =
      ∑ _j ∈ (Finset.univ.erase 0 : Finset (Fin n)), (s.history.pinged 0 : Int) := by
    rw [constant, before, nothing.1, nothing.2, popped_eq, isStarted]
    ring
  have equal := (Finset.sum_eq_sum_iff_of_le fun j inside => by
    have bound := bounds j (Finset.ne_of_mem_erase inside)
    exact_mod_cast bound.1.trans bound.2).mp full
  refine ⟨?_, by omega, ?_⟩
  · intro j isClient
    have mark : s.history.marks 0 j = s.history.pinged 0 := by
      exact_mod_cast equal j (Finset.mem_erase.mpr ⟨isClient, Finset.mem_univ j⟩)
    have bound := bounds j isClient
    omega
  · rcases protocol.host with idle | pushing
    · exact idle
    · rw [if_pos pushing] at nothing
      exact absurd nothing.2 one_ne_zero

theorem exchange (protocol : Protocol s) {popped : Nat} (syncing : s.main = .sync popped)
    (all : ¬ popped < n - 1) :
    Protocol { s.setProc 0 { s.proc 0 with nMsgsRecvd := [] } with
      main := .outside
      results := s.results ++ [(s.proc 0).nMsgsRecvd] } := by
  obtain ⟨reported, noSync, idle⟩ := protocol.all_reported syncing all
  have main := protocol.main
  simp only [syncing, Main.At] at main
  refine ⟨protocol.lines, ?_, ?_, ?_, ?_, ?_⟩
  · intro j isClient
    simpa [State.setProc, isClient] using
      (protocol.client j isClient).finish (reported j isClient).2 main.1
  · exact .inl (by simpa [State.setProc] using idle)
  · simpa [Main.At, State.setProc] using main.1
  · intro j isClient
    rw [List.length_append, List.length_singleton]
    change s.results.length + 1 ≤ s.history.marks 0 j
    rw [(reported j isClient).1]
    omega
  · have marks : ∑ j ∈ Finset.univ.erase 0, (s.history.marks 0 j : Int) =
        (n - 1) * ((s.results.length + 1 : Nat) : Int) := by
      rw [← main.1, ← sum_const]
      refine Finset.sum_congr rfl fun j inside => ?_
      rw [(reported j (Finset.ne_of_mem_erase inside)).1]
    simp only [State.setProc, Function.update_self, idle, reduceCtorEq, if_false, Main.popped,
      List.length_append, List.length_singleton, noSync]
    rw [marks]
    simp

theorem resume (protocol : Protocol s) {pid : Fin n} {pending : Bool} {next : State n}
    (resumed : s.resume pid pending = some next) : Protocol next := by
  by_cases host : pid = 0
  · subst host
    rcases protocol.host with idle | pushing
    · simp [State.resume, idle] at resumed
    · simp only [State.resume, pushing, Option.some.injEq] at resumed
      subst resumed
      exact protocol.resumePush pushing
  · have client := protocol.client pid host
    cases recv : (s.proc pid).recv with
    | idle => simp [State.resume, recv] at resumed
    | ping =>
        simp only [State.resume, recv, Option.some.injEq] at resumed
        subst resumed
        exact protocol.resumeTest host recv pending
    | bcast => exact protocol.resumeBcast host recv resumed
    | pong =>
        simp only [State.resume, recv, Option.some.injEq] at resumed
        subst resumed
        exact protocol.setClient host (client.pong host recv)
    | report =>
        simp only [State.resume, recv, Option.some.injEq] at resumed
        subst resumed
        exact protocol.setClient host (client.report (.inl recv) rfl (.inr (.inl rfl)))
    | exchange =>
        simp only [State.resume, recv, Option.some.injEq] at resumed
        subst resumed
        exact protocol.setClient host (client.report (.inr (.inl recv)) rfl (.inr (.inr ⟨_, rfl⟩)))
    | send nMsgs =>
        simp only [State.resume, recv, Option.some.injEq] at resumed
        subst resumed
        exact protocol.resumeSend host recv
    | push =>
        have impossible := client.recv
        simp [recv, Recv.At] at impossible

theorem step {action : Action n} {next : State n} (protocol : Protocol s)
    (stepped : CnC.Flush.step s action = some next) : Protocol next := by
  cases action with
  | send source target =>
      simp only [CnC.Flush.step, Option.ite_none_left_eq_some, Option.some.injEq] at stepped
      obtain ⟨different, rfl⟩ := stepped
      exact protocol.send different _ _
  | receive source target =>
      simp only [CnC.Flush.step, Option.ite_none_right_eq_some] at stepped
      obtain ⟨idle, received⟩ := stepped
      split at received
      · cases received
      · rename_i message rest head
        cases received
        cases message with
        | app app => exact protocol.receiveApp head
        | ping => exact protocol.receivePing idle head
        | pong nMsgs =>
            by_cases host : target = 0
            · subst host
              exact protocol.receiveNumber idle head
            · exact protocol.receivePong host idle head
  | resume pid pending => exact protocol.resume stepped
  | flush =>
      simp only [CnC.Flush.step] at stepped
      split at stepped
      · rename_i outside
        cases stepped
        exact protocol.flush outside
      · cases stepped
  | pop =>
      simp only [CnC.Flush.step] at stepped
      split at stepped
      · cases stepped
      · rename_i syncing
        simp only [Option.ite_none_right_eq_some, Option.some.injEq] at stepped
        obtain ⟨some_, rfl⟩ := stepped
        exact protocol.pop syncing some_
  | exchange =>
      simp only [CnC.Flush.step] at stepped
      split at stepped
      · cases stepped
      · rename_i syncing
        simp only [Option.ite_none_left_eq_some, Option.some.injEq] at stepped
        obtain ⟨all, rfl⟩ := stepped
        exact protocol.exchange syncing all

end Protocol

theorem protocol_start : Protocol (start n) where
  lines := by
    refine ⟨fun _ => rfl, ?_, ?_, ?_⟩
    · exact fun _ _ membership => by cases membership
    · exact fun _ _ _ membership => by cases membership
    · intro i j _
      simp [start, markers, State.sentTo]
  client j _ := by
    refine ⟨le_rfl, fun _ _ => le_rfl, le_rfl, fun _ _ => le_rfl, Nat.zero_le _, ?_, rfl⟩
    simp [start]
  host := .inl rfl
  main := rfl
  answered _ _ := le_rfl
  sync := by simp [start, Main.popped]

theorem protocol_of_reached {allowed : State n → Action n → Prop} {s : State n}
    (reached : Reached (system n) allowed s) : Protocol s := by
  refine Reached.invariant Protocol ?_ ?_ reached
  · rintro _ rfl
    exact protocol_start
  · exact fun _ _ _ _ protocol _ stepped => protocol.step stepped

end CnC.Flush
