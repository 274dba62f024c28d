import CnC.Flush.Accounting

/-!
# Every flush returns

A client which has received the PING and all PONGs of a flush reports, whatever
the order in which they have come.  Hence the receivers and the host are never
stuck within a flush, and since each of their steps takes off some work, the flush
returns.
-/

namespace CnC.Flush

open Network Transition

variable {n : Nat} [NeZero n] {s : State n}

/-- A client which waits for nothing more has reported. -/
def State.Complete (s : State n) : Prop :=
  ∀ j, j ≠ 0 → (s.proc j).recv = .idle →
    (∀ i, i ≠ j → s.history.marks j i = s.history.pinged 0) →
    s.history.reported j = s.history.pinged 0

namespace State.Complete

theorem keep (complete : s.Complete) {next : State n} (pid : Fin n)
    (pinged : next.history.pinged 0 = s.history.pinged 0)
    (others : ∀ q, q ≠ pid → (next.proc q).recv = (s.proc q).recv ∧
      next.history.marks q = s.history.marks q ∧
      next.history.reported q = s.history.reported q)
    (here : pid ≠ 0 → (next.proc pid).recv = .idle →
      (∀ i, i ≠ pid → next.history.marks pid i = s.history.pinged 0) →
      next.history.reported pid = s.history.pinged 0) : next.Complete := by
  intro j isClient idle all
  rw [pinged] at all ⊢
  by_cases same : j = pid
  · subst same
    exact here isClient idle all
  · obtain ⟨sameRecv, sameMarks, sameReported⟩ := others j same
    rw [sameRecv] at idle
    rw [sameMarks] at all
    rw [sameReported]
    exact complete j isClient idle all

theorem recvMsg (complete : s.Complete) {source target : Fin n} {rest : List (Msg n)}
    (idle : (s.proc target).recv = .idle) (protocol : Protocol s) (message : Msg n)
    (head : s.chan source target = message :: rest) :
    (s.recvMsg source target rest message).Complete := by
  have mark : ∀ q, q ≠ target → (s.history.mark source target).marks q = s.history.marks q := by
    intro q different
    simp [History.mark, different]
  cases message with
  | app app =>
      refine complete.keep target rfl ?_ ?_
      · exact fun q different => ⟨by simp [State.recvMsg, State.setProc, different], rfl, rfl⟩
      · exact fun isClient _ all => complete target isClient idle all
  | ping =>
      have isClient : target ≠ 0 := by
        rintro rfl
        have fromHost := protocol.lines.ping source 0 (head ▸ List.mem_cons_self)
        rw [fromHost, protocol.lines.self 0] at head
        cases head
      simp only [State.recvMsg]
      split
      · refine complete.keep target ?_ ?_ ?_
        · simp [History.ping, History.mark, isClient.symm]
        · exact fun q different => ⟨by simp [State.setProc, different], mark q different, rfl⟩
        · intro _ impossible
          simp [State.setProc] at impossible
      · refine complete.keep target rfl ?_ ?_
        · exact fun q different => ⟨by simp [State.setProc, different], mark q different, rfl⟩
        · intro _ impossible
          simp [State.setProc] at impossible
  | pong nMsgs =>
      simp only [State.recvMsg]
      split
      · refine complete.keep target rfl ?_ ?_
        · exact fun q different => ⟨by simp [State.setProc, different], mark q different, rfl⟩
        · intro _ impossible
          simp [State.setProc] at impossible
      · refine complete.keep target rfl ?_ ?_
        · exact fun q different => ⟨by simp [State.setProc, different], mark q different, rfl⟩
        · intro _ impossible
          simp [State.setProc] at impossible

theorem flushCount_bcast (protocol : Protocol s) {pid : Fin n} (isClient : pid ≠ 0)
    (sending : (s.proc pid).recv = .bcast)
    (all : ∀ i, i ≠ pid → s.history.marks pid i = s.history.pinged 0) :
    (s.proc pid).flushCount = 2 - (n : Int) := by
  have client := protocol.client pid isClient
  have count := client.flushCount
  have at_ := client.recv
  simp only [sending, Recv.At] at at_
  rw [Client.sum_of_all isClient fun i inside => all i (mem_clients.mp inside).1] at count
  have isPinged : (s.history.pinged 0 : Int) = s.history.pinged pid + 1 := by
    rw [← all 0 isClient.symm, ← at_]
    push_cast
    rfl
  simp only [sending, reduceCtorEq, if_false, isPinged] at count
  rw [count]
  ring

theorem flushCount_pong (protocol : Protocol s) {pid : Fin n} (isClient : pid ≠ 0)
    (counting : (s.proc pid).recv = .pong)
    (all : ∀ i, i ≠ pid → s.history.marks pid i = s.history.pinged 0) :
    (s.proc pid).flushCount - 1 = 0 := by
  have client := protocol.client pid isClient
  have count := client.flushCount
  have at_ := client.recv
  simp only [counting, Recv.At] at at_
  rw [Client.sum_of_all isClient fun i inside => all i (mem_clients.mp inside).1] at count
  have isPinged : (s.history.pinged pid : Int) = s.history.pinged 0 := by
    rw [at_.1, all 0 isClient.symm]
  simp only [counting, if_true, isPinged] at count
  rw [count]
  ring

theorem setProc (complete : s.Complete) {pid : Fin n} {process : Process n}
    (here : pid ≠ 0 → process.recv = .idle →
      (∀ i, i ≠ pid → s.history.marks pid i = s.history.pinged 0) →
      s.history.reported pid = s.history.pinged 0) : (s.setProc pid process).Complete := by
  refine complete.keep pid rfl ?_ ?_
  · exact fun q different => ⟨by simp [State.setProc, different], rfl, rfl⟩
  · intro isClient idle
    simp only [State.setProc, Function.update_self] at idle
    exact here isClient idle

theorem resume (complete : s.Complete) (protocol : Protocol s) {pid : Fin n} {pending : Bool}
    {next : State n} (resumed : s.resume pid pending = some next) : next.Complete := by
  cases recv : (s.proc pid).recv with
  | idle => simp [State.resume, recv] at resumed
  | ping =>
      simp only [State.resume, recv, Option.some.injEq] at resumed
      subst resumed
      exact complete.setProc fun _ impossible => by cases impossible
  | bcast =>
      have isClient : pid ≠ 0 := by
        rintro rfl
        rcases protocol.host with host | host <;> simp [host] at recv
      have notHost : (s.history.ping pid).pinged 0 = s.history.pinged 0 := by
        simp [History.ping, isClient.symm]
      simp only [State.resume, recv] at resumed
      split at resumed
      · cases resumed
        refine complete.keep pid notHost ?_ ?_
        · exact fun q different => ⟨by simp [State.setProc, different], rfl, rfl⟩
        · intro _ impossible
          simp [State.setProc] at impossible
      · rename_i more
        cases resumed
        refine complete.keep pid notHost ?_ ?_
        · exact fun q different => ⟨by simp [State.setProc, different], rfl, rfl⟩
        · exact fun _ _ all => absurd (flushCount_bcast protocol isClient recv all) more
  | pong =>
      simp only [State.resume, recv, Option.some.injEq] at resumed
      subst resumed
      refine complete.setProc fun isClient idle all => ?_
      simp [flushCount_pong protocol isClient recv all] at idle
  | report =>
      simp only [State.resume, recv, Option.some.injEq] at resumed
      subst resumed
      exact complete.setProc fun _ impossible => by cases impossible
  | exchange =>
      simp only [State.resume, recv, Option.some.injEq] at resumed
      subst resumed
      exact complete.setProc fun _ impossible => by cases impossible
  | send nMsgs =>
      simp only [State.resume, recv, Option.some.injEq] at resumed
      subst resumed
      refine complete.keep pid rfl ?_ ?_
      · intro q different
        simp [State.setProc, History.report, different]
      · intro isClient _ _
        have client := protocol.client pid isClient
        obtain ⟨-, late, -⟩ := client.reporting (.inr (.inr ⟨nMsgs, recv⟩))
        have lower := client.returned_le
        have upper := client.started_le
        simp only [History.report, Function.update_self]
        omega
  | push =>
      simp only [State.resume, recv, Option.some.injEq] at resumed
      subst resumed
      refine complete.keep pid rfl ?_ ?_
      · exact fun q different => ⟨by simp [State.setProc, different], rfl, rfl⟩
      · intro isClient
        have impossible := (protocol.client pid isClient).recv
        simp [recv, Recv.At] at impossible

theorem step (complete : s.Complete) (protocol : Protocol s) {action : Action n} {next : State n}
    (stepped : step s action = some next) : next.Complete := by
  cases action with
  | send source target =>
      simp only [CnC.Flush.step, Option.ite_none_left_eq_some, Option.some.injEq] at stepped
      obtain ⟨-, rfl⟩ := stepped
      exact complete
  | receive source target =>
      simp only [CnC.Flush.step, Option.ite_none_right_eq_some] at stepped
      obtain ⟨idle, received⟩ := stepped
      split at received
      · cases received
      · rename_i message rest head
        cases received
        exact complete.recvMsg idle protocol message head
  | resume pid pending => exact complete.resume protocol stepped
  | flush =>
      simp only [CnC.Flush.step] at stepped
      split at stepped
      · cases stepped
        intro j isClient _ all
        have received := all 0 isClient.symm
        have bound := (protocol.client j isClient).marks_le 0 isClient.symm
        simp only [History.ping, Function.update_self] at received
        omega
      · cases stepped
  | pop =>
      simp only [CnC.Flush.step] at stepped
      split at stepped
      · cases stepped
      · simp only [Option.ite_none_right_eq_some, Option.some.injEq] at stepped
        obtain ⟨-, rfl⟩ := stepped
        exact complete
  | exchange =>
      simp only [CnC.Flush.step] at stepped
      split at stepped
      · cases stepped
      · simp only [Option.ite_none_left_eq_some, Option.some.injEq] at stepped
        obtain ⟨-, rfl⟩ := stepped
        refine complete.keep 0 rfl ?_ fun impossible => absurd rfl impossible
        exact fun q different => ⟨by simp [State.setProc, different], rfl, rfl⟩

end State.Complete

theorem complete_of_reached {allowed : State n → Action n → Prop}
    (reached : Reached (system n) allowed s) : s.Complete := by
  refine Reached.invariant State.Complete ?_ ?_ reached
  · rintro _ rfl _ _ _ _
    rfl
  · exact fun _ _ _ before complete _ stepped =>
      complete.step (protocol_of_reached before) stepped

/-- The steps of the receivers, and of the host within a flush. -/
def Action.internal : Action n → Bool
  | .send _ _ => false
  | .flush => false
  | _ => true

theorem idle_of_stuck (stuck : ∀ action : Action n, action.internal →
    step s action = none) : (∀ pid, (s.proc pid).recv = .idle) ∧ ∀ i j, s.chan i j = [] := by
  have idle : ∀ pid, (s.proc pid).recv = .idle := by
    intro pid
    have noStep := stuck (.resume pid false) rfl
    cases recv : (s.proc pid).recv with
    | idle => rfl
    | bcast =>
        simp only [step, State.resume, recv] at noStep
        split at noStep <;> cases noStep
    | _ => simp [step, State.resume, recv] at noStep
  refine ⟨idle, fun i j => ?_⟩
  have noStep := stuck (.receive i j) rfl
  cases queue : s.chan i j with
  | nil => rfl
  | cons message rest => simp [step, idle j, queue] at noStep

theorem progress (protocol : Protocol s) (complete : s.Complete) (inside : s.main ≠ .outside) :
    ∃ action : Action n, action.internal ∧ (step s action).isSome := by
  by_contra none_
  have stuck : ∀ action : Action n, action.internal → step s action = none := by
    intro action isInternal
    rw [← Option.not_isSome_iff_eq_none]
    exact fun enabled => none_ ⟨action, isInternal, enabled⟩
  obtain ⟨idle, empty⟩ := idle_of_stuck stuck
  have received : ∀ i j, i ≠ j → s.history.marks j i = s.sentTo i j := by
    intro i j different
    have marked := protocol.lines.marked i j different
    simpa [empty i j, markers] using marked
  have reported : ∀ j, j ≠ 0 → s.history.reported j = s.history.pinged 0 := by
    intro j isClient
    refine complete j isClient (idle j) fun i different => ?_
    rw [received i j different]
    by_cases host : i = 0
    · simp [State.sentTo, host]
    · have at_ := (protocol.client i host).recv
      simp only [idle i, Recv.At] at at_
      simp only [State.sentTo, if_neg host, if_neg isClient]
      rw [at_, received 0 i (Ne.symm host)]
      simp [State.sentTo]
  cases main : s.main with
  | outside => exact inside main
  | sync popped =>
      have noPop := stuck .pop rfl
      have noExchange := stuck .exchange rfl
      have waiting : popped < n - 1 := by
        by_contra all
        simp [step, main, all] at noExchange
      have noSync : s.sync = 0 := by
        by_contra some_
        simp [step, main, waiting, Nat.pos_of_ne_zero some_] at noPop
      have sync := protocol.sync
      have started := protocol.main
      simp only [main, Main.At] at started
      have marks : ∑ j ∈ Finset.univ.erase 0, (s.history.marks 0 j : Int) =
          (n - 1) * ((s.results.length + 1 : Nat) : Int) := by
        rw [← started.1, ← Protocol.sum_const]
        refine Finset.sum_congr rfl fun j inside => ?_
        have isClient := Finset.ne_of_mem_erase inside
        rw [received j 0 isClient]
        simp [State.sentTo, isClient, reported j isClient]
      rw [marks, main, noSync, idle 0] at sync
      simp only [Main.popped, reduceCtorEq, if_false] at sync
      push_cast at sync
      have counted : (popped : Int) = n - 1 := by linarith
      omega

def Recv.work (recv : Recv n) : Int :=
  match recv with
  | .idle => 0
  | .ping => 4 * n + 1
  | .bcast => 4 * n
  | .pong => 1
  | .report => 0
  | .exchange => -1
  | .send _ => -2
  | .push => 2

def Process.work (process : Process n) : Int :=
  process.recv.work

def Msg.work : Msg n → Int
  | .app _ => 1
  | .ping => 4 * n + 2
  | .pong _ => 4

def Main.work : Main → Int
  | .outside => 0
  | .sync _ => 1

/-- A bound for the number of steps of the receivers and the host until the flush
returns.  The steps of a client which reports are paid for by its missing
report. -/
def State.work (s : State n) : Int :=
  total (fun _ process => process.work) Msg.work s.proc s.chan +
    10 * ((n - 1) * s.history.pinged 0 - ∑ j ∈ Finset.univ.erase 0, (s.history.reported j : Int)) +
    s.sync + s.main.work

theorem recvMsg_work {source target : Fin n} {rest : List (Msg n)} {message : Msg n}
    (idle : (s.proc target).recv = .idle) (protocol : Protocol s)
    (head : s.chan source target = message :: rest) :
    (s.recvMsg source target rest message).work < s.work := by
  have before : (s.proc target).work = 0 := by rw [Process.work, idle]; rfl
  cases message with
  | app app =>
      simp only [State.work, State.recvMsg, State.setProc, History.receive]
      rw [total_take _ _ _ head]
      simp only [Process.work, idle, Recv.work, Msg.work]
      linarith
  | ping =>
      have isClient : target ≠ 0 := by
        rintro rfl
        have fromHost := protocol.lines.ping source 0 (head ▸ List.mem_cons_self)
        rw [fromHost, protocol.lines.self 0] at head
        cases head
      have processes : (0 : Int) ≤ n := Int.natCast_nonneg n
      simp only [State.work, State.recvMsg]
      split
      · simp only [State.setProc, History.ping, History.mark, Function.update_of_ne isClient.symm]
        rw [total_take _ _ _ head, before]
        simp only [Process.work, Recv.work, Msg.work]
        linarith
      · simp only [State.setProc, History.mark]
        rw [total_take _ _ _ head, before]
        simp only [Process.work, Recv.work, Msg.work]
        linarith
  | pong nMsgs =>
      simp only [State.work, State.recvMsg]
      split
      · simp only [State.setProc, History.mark]
        rw [total_take _ _ _ head, before]
        simp only [Process.work, Recv.work, Msg.work]
        linarith
      · simp only [State.setProc, History.mark]
        rw [total_take _ _ _ head, before]
        simp only [Process.work, Recv.work, Msg.work]
        linarith

theorem sum_pongs {pid : Fin n} (isClient : pid ≠ 0) :
    ((((others pid).filter (· ≠ 0)).map fun receiver => (receiver, Msg.pong (n := n) [])).map
      fun pair => Msg.work pair.2).sum = 4 * ((n : Int) - 2) := by
  have receivers : ((others pid).filter (· ≠ 0)).toFinset = clients pid := by
    ext i
    simp [mem_others, mem_clients]
  have length : (((others pid).filter (· ≠ 0)).length : Int) = n - 2 := by
    rw [← card_clients isClient, ← receivers,
      List.toFinset_card_of_nodup ((nodup_others pid).filter _)]
  simp only [List.map_map, Function.comp_def, Msg.work, List.map_const', List.sum_replicate,
    nsmul_eq_mul, length]
  ring

theorem resume_work (protocol : Protocol s) {pid : Fin n} {pending : Bool} {next : State n}
    (resumed : s.resume pid pending = some next) : next.work < s.work := by
  have isClient : (s.proc pid).recv ≠ .idle → (s.proc pid).recv ≠ .push → pid ≠ 0 := by
    rintro notIdle notPush rfl
    rcases protocol.host with recv | recv
    · exact notIdle recv
    · exact notPush recv
  cases recv : (s.proc pid).recv with
  | idle => simp [State.resume, recv] at resumed
  | ping =>
      simp only [State.resume, recv, Option.some.injEq] at resumed
      subst resumed
      simp only [State.work, State.setProc, total_update, Process.work, recv, Recv.work]
      linarith
  | bcast =>
      have notHost := isClient (by simp [recv]) (by simp [recv])
      simp only [State.resume, recv] at resumed
      split at resumed
      · cases resumed
        simp only [State.work, State.setProc, Channels.post, total_apply, Process.work, recv, Recv.work,
          sum_pongs notHost, History.ping, Function.update_of_ne notHost.symm]
        linarith
      · cases resumed
        simp only [State.work, State.setProc, Channels.post, total_apply, Process.work, recv, Recv.work,
          sum_pongs notHost, History.ping, Function.update_of_ne notHost.symm]
        linarith
  | pong =>
      simp only [State.resume, recv, Option.some.injEq] at resumed
      subst resumed
      simp only [State.work, State.setProc, total_update, Process.work, recv]
      split <;> simp only [Recv.work] <;> linarith
  | report =>
      simp only [State.resume, recv, Option.some.injEq] at resumed
      subst resumed
      simp only [State.work, State.setProc, total_update, Process.work, recv, Recv.work]
      linarith
  | exchange =>
      simp only [State.resume, recv, Option.some.injEq] at resumed
      subst resumed
      simp only [State.work, State.setProc, total_update, Process.work, recv, Recv.work]
      linarith
  | send nMsgs =>
      have notHost := isClient (by simp [recv]) (by simp [recv])
      simp only [State.resume, recv, Option.some.injEq] at resumed
      subst resumed
      have reported := Client.sum_increment
        (Finset.mem_erase.mpr ⟨notHost, Finset.mem_univ pid⟩) s.history.reported
      simp only [State.work, State.setProc, total_apply, Process.work, recv, History.report, reported]
      simp only [Recv.work, List.map_cons, List.map_nil, List.sum_cons, List.sum_nil, Msg.work]
      linarith
  | push =>
      simp only [State.resume, recv, Option.some.injEq] at resumed
      subst resumed
      simp only [State.work, State.setProc, total_update, Process.work, recv, Recv.work]
      push_cast
      linarith

theorem step_work (protocol : Protocol s) {action : Action n} {next : State n}
    (isInternal : action.internal) (stepped : step s action = some next) :
    next.work < s.work := by
  cases action with
  | send source target => cases isInternal
  | flush => cases isInternal
  | receive source target =>
      simp only [step, Option.ite_none_right_eq_some] at stepped
      obtain ⟨idle, received⟩ := stepped
      split at received
      · cases received
      · rename_i message rest head
        cases received
        exact recvMsg_work idle protocol head
  | resume pid pending => exact resume_work protocol stepped
  | pop =>
      simp only [step] at stepped
      split at stepped
      · cases stepped
      · rename_i syncing
        simp only [Option.ite_none_right_eq_some, Option.some.injEq] at stepped
        obtain ⟨some_, rfl⟩ := stepped
        have positive : ((s.sync - 1 : Nat) : Int) = s.sync - 1 := by omega
        simp only [State.work, syncing, Main.work, positive]
        linarith
  | exchange =>
      simp only [step] at stepped
      split at stepped
      · cases stepped
      · rename_i syncing
        simp only [Option.ite_none_left_eq_some, Option.some.injEq] at stepped
        obtain ⟨-, rfl⟩ := stepped
        simp only [State.work, State.setProc, total_update, syncing, Process.work, Main.work]
        linarith

theorem work_nonneg (protocol : Protocol s) : 0 ≤ s.work := by
  have messages : 0 ≤ weight Msg.work s.chan := by
    refine weight_nonneg (fun message => ?_) s.chan
    cases message <;> simp only [Msg.work] <;> positivity
  have main : 0 ≤ s.main.work := by
    cases s.main <;> simp [Main.work]
  have host : 0 ≤ (s.proc 0).recv.work := by
    rcases protocol.host with recv | recv <;> simp [recv, Recv.work]
  have client : ∀ j ∈ Finset.univ.erase 0, 0 ≤ (s.proc j).recv.work +
      10 * ((s.history.pinged 0 : Int) - s.history.reported j) := by
    intro j inside
    have isClient := Finset.ne_of_mem_erase inside
    have invariant := protocol.client j isClient
    have upper := invariant.marks_le 0 isClient.symm
    have lower := invariant.reported_le 0 isClient.symm
    have late := invariant.reporting
    cases recv : (s.proc j).recv with
    | report =>
        have := (late (.inl recv)).2.1
        simp only [Recv.work]
        omega
    | exchange =>
        have := (late (.inr (.inl recv))).2.1
        simp only [Recv.work]
        omega
    | send nMsgs =>
        have := (late (.inr (.inr ⟨nMsgs, recv⟩))).2.1
        simp only [Recv.work]
        omega
    | _ =>
        simp only [Recv.work]
        omega
  have clients := Finset.sum_nonneg client
  rw [Finset.sum_add_distrib, ← Finset.mul_sum, Finset.sum_sub_distrib, Protocol.sum_const]
    at clients
  have split_ := Finset.add_sum_erase Finset.univ (fun j => (s.proc j).recv.work)
    (Finset.mem_univ (0 : Fin n))
  have sync : (0 : Int) ≤ s.sync := Int.natCast_nonneg s.sync
  simp only [State.work, total, Process.work]
  linarith

/-- A message which is in no queue and not counted for a later flush is in the
results. -/
theorem Located.in_results (located : Located s) (protocol : Protocol s) {app : App n}
    (noQueue : ∀ i j, .app app ∉ s.chan i j)
    (notLater : ∀ flush, s.results.length ≤ flush → ¬ s.Due app flush) :
    s.occurrences app = s.results.flatten.count (.message app) := by
  have later : ∀ pid : Fin n, ¬ s.Due app (if pid = 0 then s.results.length
      else s.history.reported pid) := by
    intro pid
    apply notLater
    split
    · exact le_rfl
    · rename_i isClient
      exact (protocol.client pid isClient).returned_le
  have processes : ∀ pid, (s.proc pid).occurrences app = 0 := by
    intro pid
    have uncounted : (s.proc pid).nMsgsRecvd.count (.message app) = 0 :=
      List.count_eq_zero.mpr fun membership => later pid (located.counted pid app membership)
    unfold Process.occurrences
    rw [uncounted]
    split
    · rename_i nMsgs recv
      have isClient : pid ≠ 0 := by
        rintro rfl
        rcases protocol.host with host | host <;> simp [host] at recv
      have unsent : nMsgs.count (.message app) = 0 := by
        refine List.count_eq_zero.mpr fun membership => ?_
        exact notLater _ (protocol.client pid isClient).returned_le
          (located.sending pid nMsgs app recv membership)
      simp [unsent]
    · simp
  have messages : weight (Msg.occurrences app) s.chan = 0 := by
    refine weight_eq_zero fun i j message membership => ?_
    cases message with
    | ping => rfl
    | app other =>
        simp only [Msg.occurrences]
        refine if_neg ?_
        rintro rfl
        exact noQueue i j membership
    | pong nMsgs =>
        have toHost := (protocol.lines.pong i j nMsgs membership).2
        simp only [Msg.occurrences, Int.natCast_eq_zero]
        refine List.count_eq_zero.mpr fun inside => ?_
        by_cases host : j = 0
        · subst host
          exact notLater _ le_rfl (located.pong i nMsgs app membership inside)
        · rw [toHost host] at inside
          cases inside
  simp [State.occurrences, total, processes, messages]

/-- A process has received as many PINGs or PONGs from each other process as
flushes have returned. -/
theorem Protocol.returned_le_marks (protocol : Protocol s) {i j : Fin n} (different : i ≠ j) :
    s.results.length ≤ s.history.marks j i := by
  by_cases host : j = 0
  · subst host
    exact protocol.answered i different
  · have client := protocol.client j host
    exact client.returned_le.trans (client.reported_le i different)

/-- A message sent before the PING of a flush was handled has been received when
the flush returns. -/
theorem Accounted.received (accounted : Accounted s) {app : App n}
    (isSent : app ∈ s.history.sent) (early : app.epoch < s.results.length) :
    s.history.received app ≠ none := by
  intro unreceived
  have notDue : ∀ flush, ¬ s.Due app flush := by
    rintro flush ⟨when_, found, -⟩
    rw [unreceived] at found
    cases found
  have noQueue : ∀ i j, .app app ∉ s.chan i j := by
    intro i j membership
    have different : i ≠ j := by
      rintro rfl
      rw [accounted.protocol.lines.self i] at membership
      cases membership
    have late := (accounted.located.stamped i j different).le_of_mem membership
      (rfl : stamp (.app app) = some app.epoch)
    have handled := accounted.protocol.returned_le_marks different
    omega
  have once := accounted.conserved.once app
  rw [if_pos isSent, accounted.located.in_results accounted.protocol noQueue
    fun flush _ => notDue flush] at once
  have counted : 0 < s.results.flatten.count (.message app) := by omega
  obtain ⟨nMsgs, listed, inside⟩ := List.mem_flatten.mp (List.count_pos_iff.mp counted)
  obtain ⟨k, found⟩ := List.mem_iff_getElem?.mp listed
  exact notDue k (accounted.located.results k nMsgs app found inside)

/-- A message is counted once in the flush for which it was received, and not in
another one. -/
theorem Accounted.count_result (accounted : Accounted s) {k : Nat} {nMsgs : List (Count n)}
    (found : s.results[k]? = some nMsgs) (app : App n) :
    nMsgs.count (.message app) = if (s.history.received app).map due = some k then 1 else 0 := by
  have isDue : ∀ flush, s.Due app flush ↔ (s.history.received app).map due = some flush := by
    intro flush
    rw [Option.map_eq_some_iff]
    rfl
  split
  · rename_i here
    have onlyHere : ∀ flush, s.Due app flush → flush = k := by
      intro flush there
      rw [(isDue flush).mp there] at here
      exact Option.some.inj here
    have bound : k < s.results.length := (List.getElem?_eq_some_iff.mp found).1
    have received : s.history.received app ≠ none := by
      intro unreceived
      rw [unreceived] at here
      cases here
    have noQueue : ∀ i j, .app app ∉ s.chan i j :=
      fun i j membership => received (accounted.located.queued i j app membership)
    have once := accounted.conserved.once app
    rw [if_pos (accounted.located.sent app received),
      accounted.located.in_results accounted.protocol noQueue fun flush late there => by
        have := onlyHere flush there
        omega] at once
    have atMost : nMsgs.count (.message app) ≤ s.results.flatten.count (.message app) :=
      (List.sublist_flatten_of_mem (List.mem_of_getElem? found)).count_le _
    have counted : 0 < s.results.flatten.count (.message app) := by omega
    obtain ⟨other, listed, inside⟩ := List.mem_flatten.mp (List.count_pos_iff.mp counted)
    obtain ⟨l, foundThere⟩ := List.mem_iff_getElem?.mp listed
    have same := onlyHere l (accounted.located.results l other app foundThere inside)
    rw [same, found] at foundThere
    have atLeast : 0 < nMsgs.count (.message app) :=
      List.count_pos_iff.mpr (Option.some.inj foundThere ▸ inside)
    omega
  · rename_i elsewhere
    refine List.count_eq_zero.mpr fun inside => elsewhere ?_
    exact (isDue k).mp (accounted.located.results k nMsgs app found inside)

theorem run_internal {allowed : State n → Action n → Prop}
    (reached : Reached (system n) allowed s) {actions : List (Action n)} {next : State n}
    (computed : (system n).run (fun _ action => action.internal = true) s actions = some next) :
    (actions.length : Int) ≤ s.work ∧ (next.main ≠ .outside →
      ∃ action : Action n, action.internal ∧ (step next action).isSome) := by
  replace reached := reached.reachable
  induction actions generalizing s with
  | nil =>
      simp only [System.run, Option.some.injEq] at computed
      subst computed
      refine ⟨work_nonneg (protocol_of_reached reached), ?_⟩
      exact progress (protocol_of_reached reached) (complete_of_reached reached)
  | cons action rest inductionHypothesis =>
      simp only [System.run] at computed
      split at computed
      · rename_i isInternal
        obtain ⟨middle, stepped, remaining⟩ := Option.bind_eq_some_iff.mp computed
        obtain ⟨bounded, goes⟩ :=
          inductionHypothesis remaining (reached.step trivial stepped)
        have less := step_work (protocol_of_reached reached) isInternal stepped
        refine ⟨?_, goes⟩
        rw [List.length_cons]
        push_cast
        omega
      · cases computed

/-- Every client reports once in every flush and its counter is zero between the
flushes; a flush which has returned has received all messages sent before its
PINGs, and has counted those received for it; and every flush returns. -/
theorem flush_accounts (reached : Reachable (system n) s) :
    (∀ j, j ≠ 0 → s.results.length ≤ s.history.reported j ∧
      s.history.reported j ≤ s.history.pinged 0 ∧
      s.history.pinged 0 ≤ s.results.length + 1) ∧
    (s.main = .outside → ∀ j, j ≠ 0 → s.history.reported j = s.results.length ∧
      (s.proc j).flushCount = 0) ∧
    (∀ app ∈ s.history.sent, app.epoch < s.results.length → s.history.received app ≠ none) ∧
    (∀ app k nMsgs, s.results[k]? = some nMsgs → nMsgs.count (.message app) =
      if (s.history.received app).map due = some k then 1 else 0) ∧
    ∀ actions next,
      (system n).run (fun _ action => action.internal = true) s actions = some next →
      (actions.length : Int) ≤ s.work ∧ (next.main ≠ .outside →
        ∃ action : Action n, action.internal ∧ (step next action).isSome) := by
  have accounted := accounted_of_reached reached
  have protocol := accounted.protocol
  refine ⟨?_, ?_, ?_, ?_, ?_⟩
  · intro j isClient
    have client := protocol.client j isClient
    exact ⟨client.returned_le, (client.reported_le 0 isClient.symm).trans
      (client.marks_le 0 isClient.symm), client.started_le⟩
  · intro outside j isClient
    have main := protocol.main
    simp only [outside, Main.At] at main
    have client := protocol.client j isClient
    have lower := client.returned_le
    have upper := (client.reported_le 0 isClient.symm).trans (client.marks_le 0 isClient.symm)
    have isStarted : s.history.reported j = s.history.pinged 0 := by omega
    exact ⟨by omega, (client.settled isClient isStarted).2.2.2⟩
  · exact fun app isSent early => accounted.received isSent early
  · exact fun app k nMsgs found => accounted.count_result found app
  · exact fun actions next computed => run_internal reached computed

/-- Client 2 sends a message to client 1 and handles the PING first, so that its
PONG comes to client 1 before the PING of the host. -/
def pongBeforePing : List (Action 3) :=
  [.send 2 1, .flush, .receive 0 2, .resume 2 false, .resume 2 false,
    .receive 2 1, .receive 2 1, .resume 1 false,
    .receive 0 1, .resume 1 false, .resume 1 false, .resume 1 false, .resume 1 false,
    .resume 1 false, .resume 1 false, .receive 1 0, .resume 0 false,
    .receive 1 2, .resume 2 false, .resume 2 false, .resume 2 false, .resume 2 false,
    .receive 2 0, .resume 0 false, .pop, .pop, .exchange]

theorem flush_accounts_pongBeforePing :
    ∃ s : State 3,
      (system 3).run (fun _ _ => True) (start 3) pongBeforePing = some s ∧
      s.main = .outside ∧ s.results.length = 1 ∧
      (∀ j, j ≠ 0 → s.history.reported j = s.results.length ∧ (s.proc j).flushCount = 0) ∧
      ∃ nMsgs, s.results[0]? = some nMsgs ∧ nMsgs.count (.message ⟨0, 2, 1, 0⟩) = 1 := by
  have reached : Reachable (system 3) _ := Reached.run (.initial rfl) pongBeforePing rfl
  obtain ⟨-, settled, -, counted, -⟩ := flush_accounts reached
  exact ⟨_, rfl, rfl, rfl, settled rfl, _, rfl, counted ⟨0, 2, 1, 0⟩ 0 _ rfl⟩

end CnC.Flush
