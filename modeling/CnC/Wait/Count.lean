import CnC.Wait.Simulation

/-!
# Counting messages

The number which decides whether the host leaves the loop: it is at least the
number of application messages counted in the round, plus the PING and the PONG
of the scheduler for every client.
-/

namespace CnC.Wait

open Network Transition

variable {n : Nat} [NeZero n] {s next : State n}

/-- The counters of all processes, in terms of the messages handled in the
current round. -/
structure Counted (s : State n) : Prop where
  host : s.history.apps 0 + s.history.ponged.card +
    ∑ j ∈ s.history.marked 0, s.history.report j ≤ (s.proc 0).nMsgsRecvd
  client : ∀ j, j ≠ 0 → s.history.apps j +
    (if j ∈ s.history.called ∧ j ∉ s.history.reported then 1 else 0) ≤ (s.proc j).nMsgsRecvd
  report : ∀ j, j ∈ s.history.reported → 1 ≤ s.history.report j
  handling : ∀ j, (s.proc j).recv = .app → 0 < s.history.apps j ∨ (j = 0 ∧ s.history.stale)

theorem Counted.keep (counted : Counted s) {pid : Fin n} {process : Process n}
    (proc : next.proc = Function.update s.proc pid process)
    (counter : (s.proc pid).nMsgsRecvd ≤ process.nMsgsRecvd)
    (recv : process.recv = .app → (s.proc pid).recv = .app)
    (apps : next.history.apps = s.history.apps) (ponged : next.history.ponged = s.history.ponged)
    (marked : next.history.marked 0 = s.history.marked 0)
    (report : next.history.report = s.history.report)
    (called : next.history.called = s.history.called)
    (reported : next.history.reported = s.history.reported)
    (stale : s.history.stale → pid ≠ 0 ∨ process.recv = .app → next.history.stale) :
    Counted next := by
  have counters : ∀ j, (s.proc j).nMsgsRecvd ≤ (next.proc j).nMsgsRecvd := by
    intro j
    rw [proc]
    by_cases same : j = pid
    · subst same
      simpa using counter
    · simp [same]
  refine ⟨?_, fun j client => ?_, ?_, fun j handling => ?_⟩
  · rw [apps, ponged, marked, report]
    exact counted.host.trans (counters 0)
  · rw [apps, called, reported]
    exact (counted.client j client).trans (counters j)
  · rw [reported, report]
    exact counted.report
  · rw [apps]
    rw [proc] at handling
    by_cases same : j = pid
    · subst same
      rw [Function.update_self] at handling
      exact (counted.handling j (recv handling)).imp_right fun host =>
        ⟨host.1, stale host.2 (.inr handling)⟩
    · rw [Function.update_of_ne same] at handling
      exact (counted.handling j handling).imp_right fun host =>
        ⟨host.1, stale host.2 (.inl fun isHost => same (host.1.trans isHost.symm))⟩

theorem chan_of_wire {source target : Fin n} {message : Msg} {rest : List Msg}
    (head : s.wire source target = message :: rest) (isControl : message ≠ .app) :
    ∃ later, s.control.chan source target = message :: later := by
  have content : s.control.chan source target = (s.stream source target).filter Msg.control := rfl
  rw [content, State.stream_eq, head, List.cons_append,
    List.filter_cons_of_pos (by simpa [Msg.control] using isControl)]
  exact ⟨_, rfl⟩

/-- The number of a client is the one which it has last reported, and the host has
not yet received it. -/
theorem Protocol.number_of_chan {c : Control n} (protocol : Protocol c) {source : Fin n}
    {number : Nat} {rest : List Msg} (head : c.chan source 0 = .distPong number :: rest) :
    number = c.report source ∧ source ∉ c.marked 0 := by
  obtain ⟨-, host, -⟩ | ⟨client, -, -⟩ | ⟨-, host, -⟩ := protocol.head_cases_of_chan head
  · exact absurd rfl host
  · have content := protocol.toHost source client
    rw [head] at content
    rcases Protocol.head_cases content with ⟨-, wrong, -⟩ | ⟨-, ⟨-, unmarked⟩, isReport, -⟩
    · cases wrong
    · exact ⟨Msg.distPong.inj isReport, unmarked⟩
  · exact absurd rfl host

theorem Counted.grow (counted : Counted s) {pid : Fin n} {process : Process n}
    (proc : next.proc = Function.update s.proc pid process)
    (host : pid = 0 → next.history.apps 0 + next.history.ponged.card +
      ∑ j ∈ next.history.marked 0, next.history.report j ≤ process.nMsgsRecvd)
    (client : pid ≠ 0 → next.history.apps pid +
      (if pid ∈ next.history.called ∧ pid ∉ next.history.reported then 1 else 0) ≤
        process.nMsgsRecvd)
    (recv : process.recv = .app → 0 < next.history.apps pid)
    (apps : ∀ j, j ≠ pid → next.history.apps j = s.history.apps j)
    (called : ∀ j, j ≠ pid → (j ∈ next.history.called ↔ j ∈ s.history.called))
    (ponged : pid ≠ 0 → next.history.ponged = s.history.ponged)
    (marked : pid ≠ 0 → next.history.marked 0 = s.history.marked 0)
    (report : next.history.report = s.history.report)
    (reported : next.history.reported = s.history.reported)
    (stale : next.history.stale = s.history.stale) : Counted next := by
  have elsewhere : ∀ j, j ≠ pid → next.proc j = s.proc j := by
    intro j different
    rw [proc, Function.update_of_ne different]
  have here : next.proc pid = process := by rw [proc, Function.update_self]
  refine ⟨?_, fun j isClient => ?_, ?_, fun j handling => ?_⟩
  · by_cases isHost : pid = 0
    · rw [isHost] at here
      rw [here]
      exact host isHost
    · rw [elsewhere 0 (Ne.symm isHost), apps 0 (Ne.symm isHost), ponged isHost, marked isHost,
        report]
      exact counted.host
  · by_cases same : j = pid
    · subst same
      rw [here]
      exact client isClient
    · rw [elsewhere j same, apps j same, reported]
      simpa only [called j same] using counted.client j isClient
  · rw [reported, report]
    exact counted.report
  · by_cases same : j = pid
    · subst same
      rw [here] at handling
      exact .inl (recv handling)
    · rw [elsewhere j same] at handling
      rw [apps j same, stale]
      exact counted.handling j handling

theorem Counted.recvMsg (counted : Counted s) (protocol : Protocol s.control)
    {source target : Fin n} {message : Msg} {rest : List Msg}
    (idle : (s.proc target).recv = .idle) (head : s.wire source target = message :: rest) :
    Counted (s.recvMsg source target rest message) := by
  have notApp : (s.proc target).recv ≠ .app := by simp [idle]
  cases message with
  | app =>
      refine counted.grow rfl ?_ ?_ ?_ ?_ (fun _ _ => Iff.rfl) (fun _ => rfl) (fun _ => rfl) rfl rfl
        rfl
      · rintro rfl
        have before := counted.host
        simp only [State.recvMsg, History.count, Function.update_self]
        omega
      · intro client
        have before := counted.client target client
        simp only [State.recvMsg, History.count, Function.update_self]
        omega
      · intro _
        simp [State.recvMsg, History.count]
      · intro j different
        simp [State.recvMsg, History.count, different]
  | schedPing =>
      obtain ⟨later, content⟩ := chan_of_wire head (by simp)
      obtain ⟨rfl, client, -⟩ | ⟨-, -, wrong | ⟨_, wrong⟩⟩ | ⟨-, -, -, wrong⟩ :=
        protocol.head_cases_of_chan content
      · refine counted.grow rfl (fun host => absurd host client) ?_ (fun recv => absurd recv notApp)
          (fun _ _ => rfl) ?_ (fun _ => rfl) (fun _ => rfl) rfl rfl rfl
        · intro _
          have before := counted.client target client
          have uncalled : target ∉ s.history.called := by
            have list := protocol.fromHost target client
            rw [content] at list
            rcases Protocol.head_cases list with ⟨⟨-, uncalled⟩, -⟩ | ⟨-, -, wrong, -⟩
            · exact uncalled
            · cases wrong
          simp only [State.recvMsg]
          simp only [uncalled, false_and, if_false, add_zero] at before
          split <;> omega
        · intro j different
          simp [State.recvMsg, different]
      all_goals cases wrong
  | schedPong =>
      obtain ⟨later, content⟩ := chan_of_wire head (by simp)
      obtain ⟨-, -, wrong | wrong⟩ | ⟨client, rfl, -⟩ | ⟨-, -, -, wrong⟩ :=
        protocol.head_cases_of_chan content
      · cases wrong
      · cases wrong
      · refine counted.grow rfl ?_ (fun client => absurd rfl client) (fun recv => absurd recv notApp)
          (fun _ _ => rfl) (fun _ _ => Iff.rfl) (fun client => absurd rfl client) (fun _ => rfl) rfl rfl
          rfl
        intro _
        have before := counted.host
        have grown := Finset.card_insert_le source s.history.ponged
        simp only [State.recvMsg]
        omega
      · cases wrong
  | distPing =>
      obtain ⟨later, content⟩ := chan_of_wire head (by simp)
      obtain ⟨rfl, client, -⟩ | ⟨-, -, wrong | ⟨_, wrong⟩⟩ | ⟨-, -, -, wrong⟩ :=
        protocol.head_cases_of_chan content
      · by_cases two : n = 2
        · simp only [State.recvMsg, if_pos two]
          exact counted.keep rfl le_rfl (fun recv => by cases recv) rfl rfl
            (by simp [History.mark, client.symm]) rfl rfl rfl (fun stale _ => stale)
        · simp only [State.recvMsg, if_neg two]
          exact counted.keep rfl le_rfl (fun recv => by cases recv) rfl rfl
            (by simp [History.mark, client.symm]) rfl rfl rfl (fun stale _ => stale)
      all_goals cases wrong
  | distPong number =>
      obtain ⟨later, content⟩ := chan_of_wire head (by simp)
      by_cases client : target = 0
      · subst client
        obtain ⟨isReport, unmarked⟩ := protocol.number_of_chan content
        refine counted.grow rfl ?_ (fun client => absurd rfl client) (fun recv => absurd recv notApp)
          (fun _ _ => rfl) (fun _ _ => Iff.rfl) (fun _ => rfl) (fun client => absurd rfl client) rfl
          rfl rfl
        intro _
        have before := counted.host
        have sum : ∑ j ∈ insert source (s.history.marked 0), s.history.report j =
            s.history.report source + ∑ j ∈ s.history.marked 0, s.history.report j :=
          Finset.sum_insert unmarked
        have same : number = s.history.report source := isReport
        simp only [State.recvMsg, ne_eq, not_true_eq_false, if_false, History.mark,
          Function.update_self]
        omega
      · simp only [State.recvMsg, ne_eq, client, not_false_eq_true, if_true]
        refine counted.keep rfl le_rfl ?_ rfl rfl ?_ rfl rfl rfl (fun stale _ => stale)
        · dsimp only
          split <;> exact fun recv => by cases recv
        · simp [History.mark, Ne.symm client]

theorem Counted.before_pong (counted : Counted s) (protocol : Protocol s.control) {pid : Fin n}
    {pending : Bool} (handling : (s.proc pid).recv = .pong pending) :
    pid ≠ 0 ∧ pid ∉ s.history.reported ∧ s.history.apps pid + 1 ≤ (s.proc pid).nMsgsRecvd := by
  have control : s.control.recv pid = .pong pending := by
    simp [State.control, handling, Recv.control]
  obtain ⟨pinged, unreported, -⟩ := protocol.pong pid (.inr ⟨pending, control⟩)
  have called : pid ∈ s.history.called :=
    protocol.answered (protocol.ponged (protocol.pinged pinged))
  have client : pid ≠ 0 := protocol.ne_zero called
  have count := counted.client pid client
  rw [if_pos ⟨called, unreported⟩] at count
  exact ⟨client, unreported, count⟩

theorem Counted.pong (counted : Counted s) (protocol : Protocol s.control) {pid : Fin n}
    {pending : Bool} (handling : (s.proc pid).recv = .pong pending)
    (resumed : s.resume pid = some next) : Counted next := by
  obtain ⟨client, unreported, before⟩ := counted.before_pong protocol handling
  have unmarked : pid ∉ s.history.marked 0 :=
    fun marked => unreported (protocol.markedAtHost pid marked)
  simp only [State.resume, handling, Option.some.injEq] at resumed
  subst resumed
  refine ⟨?_, fun j isClient => ?_, fun j reported => ?_, fun j isApp => ?_⟩
  · have sum : ∑ j ∈ s.history.marked 0, Function.update s.history.report pid
        ((s.proc pid).nMsgsRecvd + pending.toNat) j = ∑ j ∈ s.history.marked 0, s.history.report j := by
      apply Finset.sum_congr rfl
      intro j marked
      rw [Function.update_of_ne]
      rintro rfl
      exact unmarked marked
    simpa [State.setProc, client.symm, sum] using counted.host
  · by_cases same : j = pid
    · subst same
      simp [State.setProc]
    · simpa [State.setProc, same] using counted.client j isClient
  · by_cases same : j = pid
    · subst same
      simp only [Function.update_self]
      omega
    · simp only [Function.update_of_ne same]
      exact counted.report j ((Finset.mem_insert.mp reported).resolve_left same)
  · by_cases same : j = pid
    · subst same
      simp [State.setProc] at isApp
    · simp only [State.setProc, Function.update_of_ne same] at isApp ⊢
      exact counted.handling j isApp

theorem Counted.resume (counted : Counted s) (protocol : Protocol s.control) {pid : Fin n}
    (resumed : s.resume pid = some next) : Counted next := by
  cases handling : (s.proc pid).recv with
  | idle => simp [State.resume, handling] at resumed
  | app => simp [State.resume, handling] at resumed
  | ping pending =>
      simp only [State.resume, handling, Option.some.injEq] at resumed
      subst resumed
      refine counted.keep rfl (Nat.le_add_right _ _) ?_ rfl rfl rfl rfl rfl rfl
        (fun stale _ => stale)
      dsimp only
      split <;> exact fun recv => by cases recv
  | test =>
      simp only [State.resume, handling, Option.some.injEq] at resumed
      subst resumed
      exact counted.keep rfl le_rfl (fun recv => by cases recv) rfl rfl rfl rfl rfl rfl
        (fun stale _ => stale)
  | pong pending => exact counted.pong protocol handling resumed

theorem Counted.reset (counted : Counted s) :
    Counted { s.setProc 0 { s.proc 0 with nMsgsRecvd := 0, loop := .initWait } with
      history := s.history.reset (decide ((s.proc 0).recv = .app)) } := by
  refine ⟨by simp [History.reset], fun j client => ?_, by simp [History.reset], fun j isApp => ?_⟩
  · have before := counted.client j client
    simp only [History.reset, State.setProc, Function.update_of_ne client, Finset.notMem_empty,
      false_and, if_false]
    omega
  · by_cases host : j = 0
    · subst host
      exact .inr ⟨rfl, by simpa [State.setProc, History.reset] using isApp⟩
    · simp only [State.setProc, History.reset, Function.update_of_ne host] at isApp ⊢
      exact .inl ((counted.handling j isApp).resolve_right fun isHost => host isHost.1)

/-- The thread in `wait_loop` leaves the counters alone, until the host resets
its own. -/
theorem waitLoop_keep {pid : Fin n} (waited : s.waitLoop pid = some next)
    (early : (s.proc pid).loop ≠ .exchange) : ∃ process answered,
      next = { s.setProc pid process with history := { s.history with answered := answered } } ∧
        process.nMsgsRecvd = (s.proc pid).nMsgsRecvd ∧ process.recv = (s.proc pid).recv ∧
        process.steps = (s.proc pid).steps := by
  unfold State.waitLoop at waited
  dsimp only at waited
  repeat' split at waited
  all_goals first
    | contradiction
    | exact ⟨_, _, (Option.some.inj waited).symm, rfl, rfl, rfl⟩

theorem waitLoop_exchange (exchange : (s.proc 0).loop = .exchange)
    (waited : s.waitLoop 0 = some next) :
    next = { s.setProc 0 { s.proc 0 with nMsgsRecvd := 0, loop := .initWait } with
        history := s.history.reset (decide ((s.proc 0).recv = .app)) } ∨ Leaves s next := by
  unfold State.waitLoop at waited
  simp only [exchange] at waited
  split at waited
  · exact .inl (Option.some.inj waited).symm
  · rename_i few
    exact .inr ⟨exchange, Nat.le_of_not_lt few, (Option.some.inj waited).symm⟩

theorem Protocol.client_early (protocol : Protocol s.control) {pid : Fin n} (client : pid ≠ 0) :
    (s.proc pid).loop ≠ .exchange := by
  intro exchange
  have loop : s.control.loop pid = .exchange := by simp [State.control, client, exchange]
  have known := protocol.clients pid client
  rw [loop] at known
  split at known
  · exact known
  · cases known

theorem Counted.step (counted : Counted s) (protocol : Protocol s.control) {action : Action n}
    (stepped : step s action = some next) : Counted next ∨ Leaves s next := by
  cases action with
  | schedule pid =>
      simp only [CnC.Wait.step, Option.ite_none_right_eq_some, Option.some.injEq] at stepped
      obtain ⟨-, rfl⟩ := stepped
      exact .inl (counted.keep rfl le_rfl id rfl rfl rfl rfl rfl rfl (fun stale _ => stale))
  | finish pid =>
      simp only [CnC.Wait.step, Option.ite_none_right_eq_some, Option.some.injEq] at stepped
      obtain ⟨-, rfl⟩ := stepped
      exact .inl (counted.keep rfl le_rfl id rfl rfl rfl rfl rfl rfl (fun stale _ => stale))
  | send pid receivers =>
      simp only [CnC.Wait.step, Option.ite_none_right_eq_some, Option.some.injEq] at stepped
      obtain ⟨-, rfl⟩ := stepped
      exact .inl (counted.keep rfl le_rfl id rfl rfl rfl rfl rfl rfl (fun stale _ => stale))
  | transmit pid =>
      simp only [CnC.Wait.step] at stepped
      split at stepped
      · cases stepped
      · cases stepped
        exact .inl (counted.keep rfl le_rfl id rfl rfl rfl rfl rfl rfl (fun stale _ => stale))
  | receive source target =>
      simp only [CnC.Wait.step, Option.ite_none_right_eq_some] at stepped
      obtain ⟨idle, received⟩ := stepped
      split at received
      · cases received
      · rename_i head
        cases received
        exact .inl (counted.recvMsg protocol idle head)
  | handled pid =>
      simp only [CnC.Wait.step, State.handled, Option.ite_none_right_eq_some,
        Option.some.injEq] at stepped
      obtain ⟨-, rfl⟩ := stepped
      refine .inl (counted.keep rfl le_rfl (fun recv => by cases recv) rfl rfl rfl rfl rfl rfl ?_)
      rintro stale (client | recv)
      · simp [stale, client]
      · cases recv
  | resume pid => exact .inl (counted.resume protocol stepped)
  | waitLoop pid =>
      have waited : s.waitLoop pid = some next := stepped
      by_cases exchange : (s.proc pid).loop = .exchange
      · by_cases host : pid = 0
        · subst host
          rcases waitLoop_exchange exchange waited with rfl | leaves
          · exact .inl counted.reset
          · exact .inr leaves
        · exact absurd exchange (protocol.client_early host)
      · obtain ⟨process, answered, rfl, counter, recv, -⟩ := waitLoop_keep waited exchange
        exact .inl (counted.keep rfl counter.ge (fun isApp => recv ▸ isApp) rfl rfl rfl rfl rfl rfl
          (fun stale _ => stale))

end CnC.Wait
