import CnC.Wait.Moves

/-!
# Rounds without application messages

If no process has counted an application message in a round, then a process
which has returned from `wait_all` stays without steps, and sends nothing but
PINGs and PONGs.  As channels are FIFO, no application message follows its PING
or PONG of the distributor.
-/

namespace CnC.Wait

open Network Transition

variable {n : Nat} [NeZero n] {s next : State n}

/-- The thread has returned from `wait_all`. -/
def Loop.Passed : Loop → Prop
  | .pending => True
  | .finiWait _ => True
  | .flush => True
  | .sync _ => True
  | .exchange => True
  | _ => False

/-- A process has returned from `wait_all` in the current round. -/
def State.Passed (s : State n) (pid : Fin n) : Prop :=
  (s.proc pid).loop.Passed ∨ pid ∈ s.history.answered

/-- No process has counted an application message in the current round. -/
structure History.Clean (history : History n) : Prop where
  host : history.apps 0 = 0
  unreported : ∀ j, j ≠ 0 → j ∉ history.reported → history.apps j = 0
  reported : ∀ j, j ≠ 0 → j ∈ history.reported → history.report j ≤ 1

/-- A process which has returned from `wait_all` has no steps and handles no
message. -/
def Inactive (s : State n) : Prop :=
  ∀ j, s.Passed j → ¬ (s.proc j).Active

structure Settled (s : State n) : Prop where
  inactive : Inactive s
  closed : ∀ i j, Sealed (decide (i ∈ s.history.marked j)) (s.stream i j)

theorem Protocol.passed_of_mark (protocol : Protocol s.control) {i j : Fin n}
    (marked : i ∈ s.history.marked j ∨ ∃ message ∈ s.stream i j, message.mark) : s.Passed i := by
  have flushing : (s.proc 0).loop.Flushing → s.Passed 0 := by
    intro flushing
    left
    revert flushing
    cases (s.proc 0).loop <;> simp [Loop.Flushing, Loop.Passed]
  have answered : i ∈ s.history.pinged → s.Passed i :=
    fun pinged => .inr (protocol.ponged (protocol.pinged pinged))
  rcases marked with marked | ⟨message, membership, isMark⟩
  · by_cases host : i = 0
    · subst host
      exact flushing (protocol.markedHost j marked)
    · exact answered (protocol.markedClient i j host marked)
  · have isControl : message ∈ s.control.chan i j := by
      refine List.mem_filter.mpr ⟨membership, ?_⟩
      revert isMark
      cases message <;> simp [Msg.mark, Msg.control]
    have different : i ≠ j := by
      rintro rfl
      rw [protocol.self i] at isControl
      exact List.not_mem_nil isControl
    by_cases source : i = 0
    · subst source
      rw [protocol.fromHost j different.symm] at isControl
      rcases List.mem_append.mp isControl with isPing | isPing
      · rw [(List.mem_ite_nil_right.mp isPing).2 |> List.mem_singleton.mp] at isMark
        cases isMark
      · exact flushing (List.mem_ite_nil_right.mp isPing).1.1
    by_cases target : j = 0
    · subst target
      rw [protocol.toHost i source] at isControl
      rcases List.mem_append.mp isControl with isPong | isPong
      · rw [(List.mem_ite_nil_right.mp isPong).2 |> List.mem_singleton.mp] at isMark
        cases isMark
      · exact answered (protocol.reported (List.mem_ite_nil_right.mp isPong).1.1)
    · rw [protocol.between i j source target different] at isControl
      exact answered (List.mem_ite_nil_right.mp isControl).1.1

theorem Settled.closed_of_moves (settled : Settled s) (protocol : Protocol s.control)
    (moves : Moves s next) (i j : Fin n) :
    Sealed (decide (i ∈ next.history.marked j)) (next.stream i j) := by
  have before := settled.closed i j
  cases moves with
  | send pid item stream allowed marked =>
      rw [stream, marked]
      unfold Channels.send
      split
      · rename_i same
        subst same
        rcases allowed.2 with noApp | ⟨active, allApp⟩
        · apply before.append
          intro isApp
          obtain ⟨pair, membership, same⟩ := List.mem_map.mp isApp
          exact noApp pair (List.mem_filter.mp membership).1 same
        · -- an active process has not sent its mark
          have notPassed : ¬ s.Passed i := fun passed => settled.inactive i passed active
          have unmarked : i ∉ s.history.marked j :=
            fun marked => notPassed (protocol.passed_of_mark (.inl marked))
          rw [decide_eq_false unmarked]
          apply Sealed.of_unmarked
          intro message membership isMark
          rcases List.mem_append.mp membership with old | new
          · exact notPassed (protocol.passed_of_mark (.inr ⟨message, old, isMark⟩))
          · obtain ⟨pair, sent, rfl⟩ := List.mem_map.mp new
            rw [allApp pair (List.mem_filter.mp sent).1] at isMark
            cases isMark
      · exact before
  | receive source target message later head stream marked =>
      rw [stream]
      by_cases same : i = source ∧ j = target
      · obtain ⟨rfl, rfl⟩ := same
        rw [head] at before
        rw [Channels.setQueue_same]
        have after := before.2
        have equal : decide (i ∈ next.history.marked j) =
            (decide (i ∈ s.history.marked j) || message.mark) := by
          rw [Bool.eq_iff_iff, decide_eq_true_iff, marked]
          simp [or_comm]
        rwa [equal]
      · rw [Channels.setQueue_other _ _ same]
        have equal : i ∈ next.history.marked j ↔ i ∈ s.history.marked j := by
          rw [marked]
          exact or_iff_right fun here => same ⟨here.2.1, here.1⟩
        simpa only [equal] using before

omit [NeZero n] in
theorem Inactive.update (inactive : Inactive s) {pid : Fin n} {process : Process n}
    (proc : next.proc = Function.update s.proc pid process)
    (answered : ∀ j, j ≠ pid → j ∈ next.history.answered → j ∈ s.history.answered)
    (here : next.Passed pid → ¬ process.Active) : Inactive next := by
  intro j passed
  by_cases same : j = pid
  · subst same
    rw [proc, Function.update_self]
    exact here passed
  · have elsewhere : next.proc j = s.proc j := by rw [proc, Function.update_of_ne same]
    unfold State.Passed at passed
    rw [elsewhere] at passed ⊢
    exact inactive j (passed.imp_right (answered j same))

omit [NeZero n] in
theorem Inactive.keep (inactive : Inactive s) {pid : Fin n} {process : Process n}
    (proc : next.proc = Function.update s.proc pid process)
    (answered : ∀ j ∈ next.history.answered, j ∈ s.history.answered ∨ (j = pid ∧ s.Passed pid))
    (loop : process.loop.Passed → s.Passed pid)
    (active : process.Active → (s.proc pid).Active) : Inactive next := by
  refine inactive.update proc (fun j different member => ?_) (fun passed isActive => ?_)
  · exact (answered j member).resolve_right fun here => different here.1
  · refine inactive pid ?_ (active isActive)
    rcases passed with passed | member
    · rw [proc, Function.update_self] at passed
      exact loop passed
    · exact (answered pid member).elim .inr fun here => here.2

omit [NeZero n] in
theorem active_of_recv {process before : Process n} (steps : process.steps = before.steps)
    (recv : process.recv ≠ .app) (active : process.Active) : before.Active := by
  rcases active with scheduled | handling
  · exact .inl (steps ▸ scheduled)
  · exact absurd handling recv

theorem Settled.inactive_recvMsg (settled : Settled s) (protocol : Protocol s.control)
    (self : ∀ i, s.stream i i = []) {source target : Fin n} {message : Msg} {rest : List Msg}
    (clean : (s.recvMsg source target rest message).history.Clean)
    (idle : (s.proc target).recv = .idle) (head : s.wire source target = message :: rest) :
    Inactive (s.recvMsg source target rest message) := by
  have notApp : (s.proc target).recv ≠ .app := by simp [idle]
  cases message with
  | app =>
      exfalso
      have counted : 0 < (s.recvMsg source target rest .app).history.apps target := by
        simp [State.recvMsg, History.count]
      by_cases host : target = 0
      · subst host
        exact absurd clean.host counted.ne'
      · by_cases reported : target ∈ s.history.reported
        · have closed := settled.closed source target
          have content := State.stream_eq s source target
          rw [head, List.cons_append] at content
          rw [content] at closed
          by_cases same : source = target
          · rw [same, self target] at content
            cases content
          · exact closed.1 (decide_eq_true (protocol.complete source target reported same)) rfl
        · exact absurd (clean.unreported target host reported) counted.ne'
  | schedPing =>
      exact settled.inactive.keep rfl (fun _ => .inl) (by simp [Loop.Passed])
        (active_of_recv rfl notApp)
  | schedPong =>
      exact settled.inactive.keep rfl (fun _ => .inl) .inl (active_of_recv rfl notApp)
  | distPing =>
      by_cases two : n = 2
      · simp only [State.recvMsg, if_pos two]
        exact settled.inactive.keep rfl (fun _ => .inl) .inl (active_of_recv rfl (by simp))
      · simp only [State.recvMsg, if_neg two]
        exact settled.inactive.keep rfl (fun _ => .inl) .inl (active_of_recv rfl (by simp))
  | distPong number =>
      by_cases client : target = 0
      · simp only [State.recvMsg, ne_eq, client, not_true_eq_false, if_false]
        exact settled.inactive.keep rfl (fun _ => .inl) .inl (active_of_recv rfl (client ▸ notApp))
      · simp only [State.recvMsg, ne_eq, client, not_false_eq_true, if_true]
        refine settled.inactive.keep rfl (fun _ => .inl) .inl (active_of_recv rfl ?_)
        dsimp only
        split <;> simp

theorem Inactive.resume (inactive : Inactive s) {pid : Fin n}
    (resumed : s.resume pid = some next) : Inactive next := by
  cases handling : (s.proc pid).recv with
  | idle => simp [State.resume, handling] at resumed
  | app => simp [State.resume, handling] at resumed
  | ping pending =>
      simp only [State.resume, handling, Option.some.injEq] at resumed
      subst resumed
      refine inactive.keep rfl (fun _ => .inl) .inl (active_of_recv rfl ?_)
      dsimp only
      split <;> simp
  | test =>
      simp only [State.resume, handling, Option.some.injEq] at resumed
      subst resumed
      exact inactive.keep rfl (fun _ => .inl) .inl (active_of_recv rfl (by simp))
  | pong pending =>
      simp only [State.resume, handling, Option.some.injEq] at resumed
      subst resumed
      exact inactive.keep rfl (fun _ => .inl) .inl (active_of_recv rfl (by simp))

/-- A thread which returns from `wait_all` finds no steps, and its receiver is not
in a handler: a message handled in a clean round has been counted before the
counter was reset. -/
theorem Counted.inactive (counted : Counted s) (protocol : Protocol s.control)
    (clean : s.history.Clean) {pid : Fin n} (isWaitAll : (s.proc pid).loop = .waitAll)
    (noSteps : (s.proc pid).steps = 0) (fresh : pid = 0 → ¬ s.history.stale) :
    ¬ (s.proc pid).Active := by
  rintro (scheduled | handling)
  · omega
  · rcases counted.handling pid handling with isCounted | ⟨host, stale⟩
    · by_cases host : pid = 0
      · subst host
        exact absurd clean.host isCounted.ne'
      · have unreported : pid ∉ s.history.reported := by
          intro reported
          have answered : pid ∈ s.control.answered :=
            protocol.ponged (protocol.pinged (protocol.reported reported))
          have known := protocol.clients pid host
          rw [if_neg fun inside => inside.2 answered] at known
          simp [State.control, host, isWaitAll] at known
        exact absurd (clean.unreported pid host unreported) isCounted.ne'
    · exact fresh host stale

/-- Where a thread of `wait_loop` comes from when it has returned from
`wait_all`. -/
theorem waitLoop_passed {pid : Fin n} (waited : s.waitLoop pid = some next)
    (early : (s.proc pid).loop ≠ .exchange) :
    ((next.proc pid).loop.Passed → (s.proc pid).loop.Passed ∨
      ((s.proc pid).loop = .waitAll ∧ (s.proc pid).steps = 0)) ∧
    ∀ j ∈ next.history.answered, j ∈ s.history.answered ∨
      (j = pid ∧ (s.proc pid).loop.Passed) := by
  unfold State.waitLoop at waited
  dsimp only at waited
  repeat' split at waited
  all_goals first
    | contradiction
    | (cases waited
       simp_all [State.setProc, Process.push, Loop.Passed, or_comm])

theorem Inactive.waitLoop (inactive : Inactive s) (protocol : Protocol s.control)
    (counted : Counted s) (clean : s.history.Clean) {pid : Fin n}
    (fresh : pid = 0 ∧ (s.proc 0).loop = .waitAll → ¬ s.history.stale)
    (waited : s.waitLoop pid = some next) (early : (s.proc pid).loop ≠ .exchange) :
    Inactive next := by
  obtain ⟨process, answered, rfl, -, recv, steps⟩ := waitLoop_keep waited early
  have active : process.Active → (s.proc pid).Active := by
    rintro (scheduled | handling)
    · exact .inl (steps ▸ scheduled)
    · exact .inr (recv ▸ handling)
  obtain ⟨loop, answers⟩ := waitLoop_passed waited early
  have here : process.loop.Passed → (s.proc pid).loop.Passed ∨
      ((s.proc pid).loop = .waitAll ∧ (s.proc pid).steps = 0) := by
    simpa [State.setProc] using loop
  by_cases returns : (s.proc pid).loop = .waitAll ∧ (s.proc pid).steps = 0
  · refine inactive.update rfl (fun j different member => ?_) (fun _ isActive => ?_)
    · exact (answers j member).resolve_right fun here => different here.1
    · refine counted.inactive protocol clean returns.1 returns.2 ?_ (active isActive)
      rintro rfl
      exact fresh ⟨rfl, returns.1⟩
  · exact inactive.keep rfl (fun j member => (answers j member).imp_right
      fun same => ⟨same.1, .inl same.2⟩) (fun passed => .inl ((here passed).resolve_right returns))
      active

theorem Settled.inactive_step (settled : Settled s) (protocol : Protocol s.control)
    (counted : Counted s) (self : ∀ i, s.stream i i = []) (before : s.history.Clean)
    (clean : next.history.Clean) {action : Action n} (stepped : step s action = some next)
    (fresh : action = .waitLoop 0 ∧ (s.proc 0).loop = .waitAll → ¬ s.history.stale)
    (early : action = .waitLoop 0 → (s.proc 0).loop ≠ .exchange) : Inactive next := by
  have inactive := settled.inactive
  cases action with
  | schedule pid =>
      simp only [CnC.Wait.step, Option.ite_none_right_eq_some, Option.some.injEq] at stepped
      obtain ⟨active, rfl⟩ := stepped
      exact inactive.keep rfl (fun _ => .inl) .inl (fun _ => active)
  | finish pid =>
      simp only [CnC.Wait.step, Option.ite_none_right_eq_some, Option.some.injEq] at stepped
      obtain ⟨scheduled, rfl⟩ := stepped
      exact inactive.keep rfl (fun _ => .inl) .inl (fun _ => .inl scheduled)
  | send pid receivers =>
      simp only [CnC.Wait.step, Option.ite_none_right_eq_some, Option.some.injEq] at stepped
      obtain ⟨active, rfl⟩ := stepped
      exact inactive.keep rfl (fun _ => .inl) .inl (fun _ => active)
  | transmit pid =>
      simp only [CnC.Wait.step] at stepped
      split at stepped
      · cases stepped
      · cases stepped
        exact inactive.keep rfl (fun _ => .inl) .inl id
  | receive source target =>
      simp only [CnC.Wait.step, Option.ite_none_right_eq_some] at stepped
      obtain ⟨idle, received⟩ := stepped
      split at received
      · cases received
      · rename_i head
        cases received
        exact settled.inactive_recvMsg protocol self clean idle head
  | handled pid =>
      simp only [CnC.Wait.step, State.handled, Option.ite_none_right_eq_some,
        Option.some.injEq] at stepped
      obtain ⟨handling, rfl⟩ := stepped
      exact inactive.keep rfl (fun _ => .inl) .inl (fun _ => .inr handling)
  | resume pid => exact inactive.resume stepped
  | waitLoop pid =>
      refine inactive.waitLoop protocol counted before ?_ stepped ?_
      · rintro ⟨rfl, isWaitAll⟩
        exact fresh ⟨rfl, isWaitAll⟩
      · by_cases host : pid = 0
        · subst host
          exact early rfl
        · exact protocol.client_early host

theorem History.Clean.congr {history after : History n} (clean : after.Clean)
    (apps : ∀ j, history.apps j ≤ after.apps j) (report : after.report = history.report)
    (reported : after.reported = history.reported) : history.Clean where
  host := Nat.le_zero.mp ((apps 0).trans clean.host.le)
  unreported j client unreported :=
    Nat.le_zero.mp ((apps j).trans (clean.unreported j client (reported ▸ unreported)).le)
  reported j client isReported := by
    have few := clean.reported j client (reported ▸ isReported)
    rwa [report] at few

/-- The number which a client reports is at least one for the PING, so that it is
larger when it has counted another message. -/
theorem clean_resume (protocol : Protocol s.control) (counted : Counted s) {pid : Fin n}
    (resumed : s.resume pid = some next) (clean : next.history.Clean) : s.history.Clean := by
  cases handling : (s.proc pid).recv with
  | idle => simp [State.resume, handling] at resumed
  | app => simp [State.resume, handling] at resumed
  | ping pending =>
      simp only [State.resume, handling, Option.some.injEq] at resumed
      subst resumed
      exact clean.congr (fun _ => le_rfl) rfl rfl
  | test =>
      simp only [State.resume, handling, Option.some.injEq] at resumed
      subst resumed
      exact clean
  | pong pending =>
      obtain ⟨client, unreported, count⟩ := counted.before_pong protocol handling
      simp only [State.resume, handling, Option.some.injEq] at resumed
      subst resumed
      have few := clean.reported pid client (Finset.mem_insert_self _ _)
      simp only [Function.update_self] at few
      refine ⟨?_, fun j isClient isUnreported => ?_, fun j isClient isReported => ?_⟩
      · simpa [client.symm] using clean.host
      · by_cases same : j = pid
        · subst same
          omega
        · have zero := clean.unreported j isClient (by simp [same, isUnreported])
          simpa [same] using zero
      · have different : j ≠ pid := by
          rintro rfl
          exact unreported isReported
        have one := clean.reported j isClient (Finset.mem_insert_of_mem isReported)
        simpa [different] using one

omit [NeZero n] in
theorem le_count (history : History n) (target j : Fin n) :
    history.apps j ≤ (history.count target).apps j := by
  by_cases same : j = target
  · subst same
    simp [History.count]
  · simp [History.count, same]

theorem clean_step (protocol : Protocol s.control) (counted : Counted s) {action : Action n}
    (stepped : step s action = some next)
    (early : action = .waitLoop 0 → (s.proc 0).loop ≠ .exchange)
    (clean : next.history.Clean) : s.history.Clean := by
  cases action with
  | schedule pid =>
      simp only [CnC.Wait.step, Option.ite_none_right_eq_some, Option.some.injEq] at stepped
      obtain ⟨-, rfl⟩ := stepped
      exact clean
  | finish pid =>
      simp only [CnC.Wait.step, Option.ite_none_right_eq_some, Option.some.injEq] at stepped
      obtain ⟨-, rfl⟩ := stepped
      exact clean
  | send pid receivers =>
      simp only [CnC.Wait.step, Option.ite_none_right_eq_some, Option.some.injEq] at stepped
      obtain ⟨-, rfl⟩ := stepped
      exact clean
  | transmit pid =>
      simp only [CnC.Wait.step] at stepped
      split at stepped <;> cases stepped
      exact clean
  | receive source target =>
      simp only [CnC.Wait.step, Option.ite_none_right_eq_some] at stepped
      obtain ⟨-, received⟩ := stepped
      split at received
      · cases received
      · rename_i message rest head
        cases received
        cases message with
        | app => exact clean.congr (le_count s.history target) rfl rfl
        | schedPing => exact clean.congr (fun _ => le_rfl) rfl rfl
        | schedPong => exact clean.congr (fun _ => le_rfl) rfl rfl
        | distPing =>
            simp only [State.recvMsg] at clean
            split at clean <;> exact clean.congr (fun _ => le_rfl) rfl rfl
        | distPong number =>
            simp only [State.recvMsg] at clean
            split at clean <;> exact clean.congr (fun _ => le_rfl) rfl rfl
  | handled pid =>
      simp only [CnC.Wait.step, State.handled, Option.ite_none_right_eq_some,
        Option.some.injEq] at stepped
      obtain ⟨-, rfl⟩ := stepped
      exact clean.congr (fun _ => le_rfl) rfl rfl
  | resume pid => exact clean_resume protocol counted stepped clean
  | waitLoop pid =>
      have notExchange : (s.proc pid).loop ≠ .exchange := by
        by_cases host : pid = 0
        · subst host
          exact early rfl
        · exact protocol.client_early host
      obtain ⟨process, answered, rfl, -⟩ := waitLoop_keep stepped notExchange
      exact clean.congr (fun _ => le_rfl) rfl rfl

end CnC.Wait
