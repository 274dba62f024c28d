import CnC.Wait.Settled

/-!
# Quiescence

The host leaves `wait_loop` after a round in which no process has counted an
application message, and all PINGs and PONGs of the distributor have been
received.  Then nothing is left to do on any process.
-/

namespace CnC.Wait

open Network Transition

variable {n : Nat} [NeZero n] {s next : State n}

/-- What holds as long as the host is in `wait_loop`. -/
structure Waits (s : State n) : Prop where
  protocol : Protocol s.control
  counted : Counted s
  self : ∀ i, s.stream i i = []
  settled : s.history.Clean → Settled s

omit [NeZero n] in
theorem self_of_moves (self : ∀ i, s.stream i i = []) (moves : Moves s next) (i : Fin n) :
    next.stream i i = [] := by
  cases moves with
  | send pid item stream allowed _ =>
      rw [stream]
      unfold Channels.send
      split
      · rename_i same
        subst same
        have none : item.filter (fun pair => pair.1 = i) = [] := by
          rw [List.filter_eq_nil_iff]
          intro pair membership
          simpa using allowed.1 pair membership
        rw [self i, none, List.map_nil, List.append_nil]
      · exact self i
  | receive source target message later head stream _ =>
      rw [stream]
      by_cases same : i = source ∧ i = target
      · obtain ⟨rfl, rfl⟩ := same
        rw [self i] at head
        cases head
      · rw [Channels.setQueue_other _ _ same, self i]

theorem Waits.reset (waits : Waits s) (exchange : (s.proc 0).loop = .exchange)
    (protocol : Protocol next.control)
    (again : next = { s.setProc 0 { s.proc 0 with nMsgsRecvd := 0, loop := .initWait } with
      history := s.history.reset (decide ((s.proc 0).recv = .app)) }) : Waits next := by
  have proc : ∀ q, q ≠ 0 → next.proc q = s.proc q := by
    intro q client
    rw [again]
    exact Function.update_of_ne client _ _
  have stream : next.stream = s.stream := by
    refine stream_congr (by rw [again]; rfl) fun q => ?_
    by_cases host : q = 0
    · rw [again, host]
      simp [State.setProc]
    · rw [proc q host]
  obtain ⟨empty, reported, -⟩ := waits.protocol.drained exchange
  refine ⟨protocol, again ▸ waits.counted.reset, fun i => by rw [stream, waits.self i],
    fun _ => ⟨fun j passed => ?_, fun i j => ?_⟩⟩
  · exfalso
    rcases passed with passed | answered
    · by_cases host : j = 0
      · rw [again, host] at passed
        simp [State.setProc, Loop.Passed] at passed
      · have answered := waits.protocol.ponged
          (waits.protocol.pinged (waits.protocol.reported (reported j host)))
        have outside := waits.protocol.clients j host
        rw [if_neg fun inside => inside.2 answered] at outside
        simp only [State.control, if_neg host] at outside
        rw [proc j host, outside] at passed
        exact passed
    · rw [again] at answered
      exact Finset.notMem_empty j answered
  · have unmarked : i ∉ next.history.marked j := by
      subst again
      exact Finset.notMem_empty i
    rw [decide_eq_false unmarked, stream]
    apply Sealed.of_unmarked
    intro message membership isMark
    have isControl : message ∈ s.control.chan i j := by
      refine List.mem_filter.mpr ⟨membership, ?_⟩
      revert isMark
      cases message <;> simp [Msg.mark, Msg.control]
    rw [empty i j] at isControl
    exact List.not_mem_nil isControl

/-- At the end of a round with few messages, no application message has been
counted. -/
theorem Waits.clean (waits : Waits s) (exchange : (s.proc 0).loop = .exchange)
    (few : (s.proc 0).nMsgsRecvd ≤ 2 * n - 2) : s.history.Clean := by
  obtain ⟨-, reported, marked⟩ := waits.protocol.drained exchange
  have barrier := waits.protocol.barrier
  have sync := waits.protocol.sync
  have counted := waits.counted.host
  simp only [State.control, exchange, Loop.poppedBarrier, Loop.poppedSync] at barrier sync
  have atLeast : ∀ j ∈ s.history.marked 0, 1 ≤ s.history.report j :=
    fun j member => waits.counted.report j (waits.protocol.markedAtHost j member)
  have ones : ∑ j ∈ s.history.marked 0, 1 = (s.history.marked 0).card := by simp
  have sum := Finset.sum_le_sum atLeast
  refine ⟨by omega, fun j client unreported => absurd (reported j client) unreported,
    fun j client _ => ?_⟩
  by_contra large
  have more : ∑ j ∈ s.history.marked 0, 1 < ∑ j ∈ s.history.marked 0, s.history.report j :=
    Finset.sum_lt_sum atLeast ⟨j, marked j 0 client, by omega⟩
  omega

omit [NeZero n] in
theorem quiet_of_inactive (inactive : ∀ pid, ¬ (s.proc pid).Active)
    (empty : ∀ i j, .app ∉ s.stream i j) : Quiet s where
  steps pid := by
    have notActive := inactive pid
    unfold Process.Active at notActive
    omega
  recv pid isApp := inactive pid (.inr isApp)
  sendQueue pid item queued pair membership isApp := by
    apply empty pid pair.1
    rw [State.stream_eq, List.mem_append]
    right
    refine List.mem_map.mpr ⟨pair, List.mem_filter.mpr ⟨?_, by simp⟩, isApp⟩
    exact List.mem_flatten.mpr ⟨item, queued, membership⟩
  wire i j membership := by
    apply empty i j
    rw [State.stream_eq, List.mem_append]
    exact .inl membership

omit [NeZero n] in
theorem Quiet.update (quiet : Quiet s) {pid : Fin n} {process : Process n}
    (proc : next.proc = Function.update s.proc pid process)
    (steps : process.steps = (s.proc pid).steps) (recv : process.recv ≠ .app)
    (sendQueue : ∀ item ∈ process.sendQueue, item ∈ (s.proc pid).sendQueue ∨
      ∀ pair ∈ item, pair.2 ≠ .app)
    (wire : ∀ i j, .app ∈ next.wire i j → .app ∈ s.wire i j) : Quiet next := by
  have elsewhere : ∀ q, q ≠ pid → next.proc q = s.proc q := by
    intro q different
    rw [proc, Function.update_of_ne different]
  have here : next.proc pid = process := by rw [proc, Function.update_self]
  refine ⟨fun q => ?_, fun q => ?_, fun q => ?_, fun i j => ?_⟩
  · by_cases same : q = pid
    · rw [same, here, steps, quiet.steps pid]
    · rw [elsewhere q same, quiet.steps q]
  · by_cases same : q = pid
    · rw [same, here]
      exact recv
    · rw [elsewhere q same]
      exact quiet.recv q
  · by_cases same : q = pid
    · rw [same, here]
      intro item queued
      exact (sendQueue item queued).elim (quiet.sendQueue pid item) id
    · rw [elsewhere q same]
      exact quiet.sendQueue q
  · exact fun membership => quiet.wire i j (wire i j membership)

theorem Waits.leaves (waits : Waits s) (leaves : Leaves s next) : Quiet next := by
  have exchange := leaves.exchange
  have settled := waits.settled (waits.clean exchange leaves.few)
  obtain ⟨-, reported, marked⟩ := waits.protocol.drained exchange
  have passed : ∀ j, s.Passed j := by
    intro j
    by_cases host : j = 0
    · left
      rw [host, exchange]
      trivial
    · exact .inr (waits.protocol.ponged
        (waits.protocol.pinged (waits.protocol.reported (reported j host))))
  have quiet : Quiet s := by
    apply quiet_of_inactive fun j => settled.inactive j (passed j)
    intro i j
    by_cases same : i = j
    · rw [same, waits.self j]
      exact List.not_mem_nil
    · have closed := settled.closed i j
      have isMarked : i ∈ s.history.marked j := marked i j same
      rw [decide_eq_true isMarked] at closed
      exact closed.app_notMem
  have proc := leaves.next_eq
  exact quiet.update (congrArg State.proc proc) rfl (quiet.recv 0) (fun _ => .inl)
    (fun i j membership => by rwa [proc] at membership)

omit [NeZero n] in
theorem Quiet.inactive (quiet : Quiet s) (pid : Fin n) : ¬ (s.proc pid).Active := by
  rintro (scheduled | handling)
  · exact absurd (quiet.steps pid) scheduled.ne'
  · exact quiet.recv pid handling

theorem Quiet.recvMsg (quiet : Quiet s) {source target : Fin n} {message : Msg}
    {rest : List Msg} (head : s.wire source target = message :: rest) :
    Quiet (s.recvMsg source target rest message) := by
  have wire : ∀ i j, .app ∈ s.wire.setQueue source target rest i j → .app ∈ s.wire i j :=
    fun i j => Channels.mem_of_mem_setQueue_tail head
  cases message with
  | app =>
      exfalso
      apply quiet.wire source target
      rw [head]
      exact List.mem_cons_self
  | schedPing => exact quiet.update rfl rfl (quiet.recv target) (fun _ => .inl) wire
  | schedPong => exact quiet.update rfl rfl (quiet.recv target) (fun _ => .inl) wire
  | distPing =>
      simp only [State.recvMsg]
      split <;> exact quiet.update rfl rfl (by simp) (fun _ => .inl) wire
  | distPong number =>
      simp only [State.recvMsg]
      split
      · refine quiet.update rfl rfl ?_ (fun _ => .inl) wire
        dsimp only
        split <;> simp
      · exact quiet.update rfl rfl (quiet.recv target) (fun _ => .inl) wire

omit [NeZero n] in
theorem mem_push {process : Process n} {item pushed : List (Fin n × Msg)}
    (noApp : ∀ pair ∈ pushed, pair.2 ≠ .app) (membership : item ∈ process.sendQueue ++ [pushed]) :
    item ∈ process.sendQueue ∨ ∀ pair ∈ item, pair.2 ≠ .app := by
  rcases List.mem_append.mp membership with old | new
  · exact .inl old
  · exact .inr (List.mem_singleton.mp new ▸ noApp)

theorem Quiet.resume (quiet : Quiet s) {pid : Fin n} (resumed : s.resume pid = some next) :
    Quiet next := by
  cases handling : (s.proc pid).recv with
  | idle => simp [State.resume, handling] at resumed
  | app => simp [State.resume, handling] at resumed
  | ping pending =>
      simp only [State.resume, handling, Option.some.injEq] at resumed
      subst resumed
      refine quiet.update rfl rfl ?_ (fun _ => mem_push ?_) (fun _ _ => id)
      · dsimp only
        split <;> simp
      · exact noApp_of_map (by simp) _
  | test =>
      simp only [State.resume, handling, Option.some.injEq] at resumed
      subst resumed
      exact quiet.update rfl rfl (by simp) (fun _ => .inl) (fun _ _ => id)
  | pong pending =>
      simp only [State.resume, handling, Option.some.injEq] at resumed
      subst resumed
      exact quiet.update rfl rfl (by simp) (fun _ => mem_push (by simp)) (fun _ _ => id)

theorem Quiet.waitLoop (quiet : Quiet s) {pid : Fin n} (waited : s.waitLoop pid = some next) :
    Quiet next := by
  have recv := quiet.recv pid
  unfold State.waitLoop at waited
  dsimp only at waited
  repeat' split at waited
  all_goals first
    | contradiction
    | exact (Option.some.inj waited) ▸
        quiet.update rfl rfl recv (fun _ => .inl) (fun _ _ => id)
    | exact (Option.some.inj waited) ▸
        quiet.update rfl rfl recv (fun _ => mem_push (by simp [broadcast])) (fun _ _ => id)

theorem Quiet.step (quiet : Quiet s) {action : Action n} (stepped : step s action = some next) :
    Quiet next := by
  cases action with
  | schedule pid =>
      simp only [CnC.Wait.step, Option.ite_none_right_eq_some] at stepped
      exact absurd stepped.1 (quiet.inactive pid)
  | finish pid =>
      simp only [CnC.Wait.step, Option.ite_none_right_eq_some] at stepped
      exact absurd (.inl stepped.1) (quiet.inactive pid)
  | send pid receivers =>
      simp only [CnC.Wait.step, Option.ite_none_right_eq_some] at stepped
      exact absurd stepped.1 (quiet.inactive pid)
  | transmit pid =>
      simp only [CnC.Wait.step] at stepped
      split at stepped
      · cases stepped
      · rename_i item rest queue
        cases stepped
        refine quiet.update rfl rfl (quiet.recv pid) (fun other queued => .inl ?_) ?_
        · rw [queue]
          exact List.mem_cons_of_mem item queued
        · intro i j membership
          rcases Channels.mem_send.mp membership with old | ⟨-, sent⟩
          · exact old
          · exact absurd rfl (quiet.sendQueue pid item (by simp [queue]) _ sent)
  | receive source target =>
      simp only [CnC.Wait.step, Option.ite_none_right_eq_some] at stepped
      obtain ⟨-, received⟩ := stepped
      split at received
      · cases received
      · rename_i head
        cases received
        exact quiet.recvMsg head
  | handled pid =>
      simp only [CnC.Wait.step, State.handled, Option.ite_none_right_eq_some] at stepped
      exact absurd stepped.1 (quiet.recv pid)
  | resume pid => exact quiet.resume stepped
  | waitLoop pid => exact quiet.waitLoop stepped

theorem Initial.stream (initial : Initial s) {i j : Fin n} {message : Msg}
    (membership : message ∈ s.stream i j) : i ≠ j ∧ message = .app := by
  rw [State.stream_eq, List.mem_append] at membership
  rcases membership with onWire | queued
  · exact initial.inFlight i j message onWire
  · obtain ⟨pair, filtered, rfl⟩ := List.mem_map.mp queued
    obtain ⟨flat, receiver⟩ := List.mem_filter.mp filtered
    obtain ⟨item, inQueue, inItem⟩ := List.mem_flatten.mp flat
    obtain ⟨other, isApp⟩ := initial.queued i item inQueue pair inItem
    exact ⟨fun same => other ((decide_eq_true_iff.mp receiver).trans same.symm), isApp⟩

theorem Initial.protocol (initial : Initial s) : Protocol s.control := by
  have history := initial.history
  have empty : ∀ i j, s.control.chan i j = [] := by
    intro i j
    refine List.filter_eq_nil_iff.mpr fun message membership => ?_
    simp [(initial.stream membership).2, Msg.control]
  have idle : ∀ j, s.control.recv j = .idle := by simp [State.control, initial.idle, Recv.control]
  have main : s.control.main = .initWait := initial.host
  have called : s.control.called = ∅ := congrArg History.called history
  have answered : s.control.answered = ∅ := congrArg History.answered history
  have ponged : s.control.ponged = ∅ := congrArg History.ponged history
  have pinged : s.control.pinged = ∅ := congrArg History.pinged history
  have reported : s.control.reported = ∅ := congrArg History.reported history
  have marked : ∀ j, s.control.marked j = ∅ := congrFun (congrArg History.marked history)
  have barrier : s.control.barrier = 0 := (initial.counters 0).2.1
  have sync : s.control.sync = 0 := (initial.counters 0).2.2
  constructor
  case clients =>
    intro j client
    have outside : s.control.loop j = .outside := by
      simp [State.control, client, initial.clients j client]
    simp [called, outside]
  case flushCount =>
    intro j _
    have zero : s.control.flushCount j = 0 := (initial.counters j).1
    simp [pinged, marked, zero]
  all_goals simp [*, Loop.Flushing, Loop.poppedBarrier, Loop.poppedSync]

theorem Initial.waits (initial : Initial s) : Waits s where
  protocol := initial.protocol
  counted := by
    have history := initial.history
    have apps : ∀ j, s.history.apps j = 0 := congrFun (congrArg History.apps history)
    have called : s.history.called = ∅ := congrArg History.called history
    have ponged : s.history.ponged = ∅ := congrArg History.ponged history
    have reported : s.history.reported = ∅ := congrArg History.reported history
    have marked : s.history.marked 0 = ∅ := congrFun (congrArg History.marked history) 0
    refine ⟨by simp [apps, ponged, marked], by simp [apps, called], by simp [reported],
      fun j handling => ?_⟩
    simp [initial.idle j] at handling
  self i := List.eq_nil_iff_forall_not_mem.mpr fun _ membership =>
    (initial.stream membership).1 rfl
  settled _ := by
    refine ⟨fun j passed => ?_, fun i j => ?_⟩
    · exfalso
      rcases passed with passed | answered
      · by_cases host : j = 0
        · simp [host, initial.host, Loop.Passed] at passed
        · simp [initial.clients j host, Loop.Passed] at passed
      · rw [congrArg History.answered initial.history] at answered
        exact Finset.notMem_empty j answered
    · have unmarked : i ∉ s.history.marked j := by
        rw [congrArg History.marked initial.history]
        exact Finset.notMem_empty i
      rw [decide_eq_false unmarked]
      apply Sealed.of_unmarked
      intro message membership isMark
      rw [(initial.stream membership).2] at isMark
      cases isMark

theorem Simulates.stays (simulates : Simulates s next) (inside : (s.proc 0).loop ≠ .left) :
    (next.proc 0).loop ≠ .left := by
  have before : s.control.main ≠ .left := inside
  change next.control.main ≠ .left
  rcases simulates with same | stepped
  · exact same ▸ before
  · generalize next.control = after at stepped
    cases stepped with
    | wait _ waiting =>
        rintro rfl
        exact waiting
    | _ => first
      | exact before
      | simp

theorem Waits.step (waits : Waits s) {action : Action n} (stepped : step s action = some next)
    (fresh : action = .waitLoop 0 ∧ (s.proc 0).loop = .waitAll → ¬ s.history.stale) :
    (Waits next ∧ Simulates s next) ∨ Quiet next := by
  rcases simulates_step waits.protocol stepped with simulates | leaves
  case inr => exact .inr (waits.leaves leaves)
  have protocol := simulates.protocol waits.protocol
  by_cases again : action = .waitLoop 0 ∧ (s.proc 0).loop = .exchange
  · obtain ⟨rfl, exchange⟩ := again
    rcases waitLoop_exchange exchange stepped with reset | leaves
    · exact .inl ⟨waits.reset exchange protocol reset, simulates⟩
    · exact .inr (waits.leaves leaves)
  · have early : action = .waitLoop 0 → (s.proc 0).loop ≠ .exchange :=
      fun isHost exchange => again ⟨isHost, exchange⟩
    have moves := moves_step waits.protocol stepped early
    rcases waits.counted.step waits.protocol stepped with counted | leaves
    · refine .inl ⟨⟨protocol, counted, self_of_moves waits.self moves, fun clean => ?_⟩, simulates⟩
      have before := clean_step waits.protocol waits.counted stepped early clean
      have settled := waits.settled before
      exact ⟨settled.inactive_step waits.protocol waits.counted waits.self before clean stepped
        fresh early, settled.closed_of_moves waits.protocol moves⟩
    · exact .inr (waits.leaves leaves)

/-- The host does not return from `wait_all` while its receiver is in the handler
of a message which it counted before it last reset its counter. -/
def Fresh (s : State n) (action : Action n) : Prop :=
  action = .waitLoop 0 ∧ (s.proc 0).loop = .waitAll → ¬ s.history.stale

/-- When the host has left `wait_loop`, nothing is going on. -/
theorem wait_quiescent (reached : Reached (system n) Fresh s) (left : (s.proc 0).loop = .left) :
    Quiet s := by
  have inside : (Waits s ∧ (s.proc 0).loop ≠ .left) ∨ Quiet s := by
    refine Reached.invariant (fun s => (Waits s ∧ (s.proc 0).loop ≠ .left) ∨ Quiet s) ?_ ?_ reached
    · intro s initial
      exact .inl ⟨initial.waits, by simp [initial.host]⟩
    · rintro before action next - (⟨waits, inside⟩ | quiet) fresh stepped
      · rcases waits.step stepped fresh with ⟨after, simulates⟩ | quiet
        · exact .inl ⟨after, simulates.stays inside⟩
        · exact .inr quiet
      · exact .inr (quiet.step stepped)
  rcases inside with ⟨-, stays⟩ | quiet
  · exact absurd left stays
  · exact quiet

instance (s : State n) (action : Action n) : Decidable (Fresh s action) :=
  inferInstanceAs (Decidable (_ → _))

/-- The host executes one step when it enters `wait_loop`. -/
def oneStep : State 2 where
  proc pid :=
    { steps := if pid = 0 then 1 else 0
      nMsgsRecvd := 0
      flushCount := 0
      barrier := 0
      sync := 0
      sendQueue := []
      recv := .idle
      loop := if pid = 0 then .initWait else .outside }
  wire _ _ := []
  history :=
    { called := ∅
      answered := ∅
      ponged := ∅
      pinged := ∅
      reported := ∅
      marked := fun _ => ∅
      apps := fun _ => 0
      report := fun _ => 0
      stale := false }

theorem oneStep_initial : Initial oneStep where
  host := rfl
  clients _ client := if_neg client
  idle _ := rfl
  counters _ := ⟨rfl, rfl, rfl⟩
  queued _ _ membership := absurd membership List.not_mem_nil
  inFlight _ _ _ membership := absurd membership List.not_mem_nil
  history := rfl

/-- The host sends PINGs and returns from `wait_all`. -/
def hostWaits : List (Action 2) :=
  [.waitLoop 0, .waitLoop 0, .transmit 0, .waitLoop 0]

def clientWaits : List (Action 2) :=
  [.receive 0 1, .waitLoop 1, .waitLoop 1, .waitLoop 1, .waitLoop 1, .transmit 1, .receive 1 0]

def flushes : List (Action 2) :=
  [.waitLoop 0, .waitLoop 0, .waitLoop 0, .transmit 0, .receive 0 1, .resume 1, .resume 1,
    .transmit 1, .receive 1 0]

/-- The host takes the number of messages. -/
def exchanges : List (Action 2) :=
  [.waitLoop 0, .waitLoop 0, .waitLoop 0]

/-- The step sends a message, which is counted in the first round. -/
def twoRounds : List (Action 2) :=
  [.send 0 [1], .finish 0, .transmit 0, .receive 0 1, .handled 1] ++
    hostWaits ++ clientWaits ++ flushes ++ exchanges ++
    hostWaits ++ clientWaits ++ flushes ++ exchanges

theorem wait_quiescent_twoRounds :
    ∃ s, (system 2).run Fresh oneStep twoRounds = some s ∧ (s.proc 0).loop = .left ∧ Quiet s := by
  have shown : ((system 2).run Fresh oneStep twoRounds).map (fun s => (s.proc 0).loop) =
      some .left := by decide +kernel
  obtain ⟨s, computed, left⟩ := Option.map_eq_some_iff.mp shown
  have reached : Reached (system 2) Fresh s :=
    Reached.run (.initial oneStep_initial) twoRounds computed
  exact ⟨s, computed, left, wait_quiescent reached left⟩

/-- The client sends a message after its number.  The host counts it in the first
round and returns from `wait_all` in the second one, and only then the handler of
the message schedules a step. -/
def lateHandler : List (Action 2) :=
  [.waitLoop 0, .send 0 [1], .finish 0, .waitLoop 0, .transmit 0, .transmit 0, .waitLoop 0] ++
    clientWaits ++ [.receive 0 1, .schedule 1, .handled 1] ++
    flushes ++ [.send 1 [0], .finish 1, .transmit 1, .receive 1 0] ++ exchanges ++
    hostWaits ++ [.schedule 0, .handled 0] ++ clientWaits ++ flushes ++ exchanges

/-- The host leaves `wait_loop` while one of its steps is still scheduled. -/
theorem wait_leaves_step :
    ∃ s, Reachable (system 2) s ∧ (s.proc 0).loop = .left ∧ (s.proc 0).steps = 1 ∧ ¬ Quiet s := by
  have shown : ((system 2).run (fun _ _ => True) oneStep lateHandler).map
      (fun s => ((s.proc 0).loop, (s.proc 0).steps)) = some (.left, 1) := by decide +kernel
  obtain ⟨s, computed, after⟩ := Option.map_eq_some_iff.mp shown
  obtain ⟨left, steps⟩ := Prod.mk.inj after
  have reached : Reachable (system 2) s :=
    Reached.run (.initial oneStep_initial) lateHandler computed
  refine ⟨s, reached, left, steps, fun quiet => ?_⟩
  have none := quiet.steps 0
  omega

end CnC.Wait
