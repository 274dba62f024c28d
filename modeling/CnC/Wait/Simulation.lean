import CnC.Wait.Round

/-!
# Steps and rounds

Every step of the processes either keeps what `Control` shows of them, or is a
step of a round; so the protocol holds in every run until the host leaves the
loop.
-/

namespace CnC.Wait

open Network Transition

variable {n : Nat}

def State.stream (s : State n) : Channels (Fin n) Msg :=
  fun i j => s.wire.send i (s.proc i).sendQueue.flatten i j

theorem State.stream_eq (s : State n) (i j : Fin n) : s.stream i j =
    s.wire i j ++ ((s.proc i).sendQueue.flatten.filter fun pair => pair.1 = j).map Prod.snd := by
  simp [State.stream, Channels.send]

theorem stream_congr {s next : State n} (wire : next.wire = s.wire)
    (queue : ∀ pid, (next.proc pid).sendQueue = (s.proc pid).sendQueue) :
    next.stream = s.stream := by
  funext i j
  simp only [State.stream, wire, queue]

theorem stream_push {s next : State n} {pid : Fin n} {item : List (Fin n × Msg)}
    (wire : next.wire = s.wire)
    (queue : (next.proc pid).sendQueue = (s.proc pid).sendQueue ++ [item])
    (others : ∀ q, q ≠ pid → (next.proc q).sendQueue = (s.proc q).sendQueue) :
    next.stream = s.stream.send pid item := by
  funext i j
  by_cases same : i = pid
  · subst same
    simp [State.stream_eq, wire, queue, Channels.send]
  · simp [State.stream_eq, wire, others i same, Channels.send, same]

theorem stream_transmit {s next : State n} {pid : Fin n} {item : List (Fin n × Msg)}
    {rest : List (List (Fin n × Msg))} (queue : (s.proc pid).sendQueue = item :: rest)
    (wire : next.wire = s.wire.send pid item) (shorter : (next.proc pid).sendQueue = rest)
    (others : ∀ q, q ≠ pid → (next.proc q).sendQueue = (s.proc q).sendQueue) :
    next.stream = s.stream := by
  funext i j
  by_cases same : i = pid
  · subst same
    simp [State.stream_eq, wire, queue, shorter, Channels.send]
  · simp [State.stream_eq, wire, others i same, Channels.send, same]

theorem stream_receive {s next : State n} {source target : Fin n} {message : Msg}
    {rest : List Msg} (head : s.wire source target = message :: rest)
    (wire : next.wire = s.wire.setQueue source target rest)
    (queue : ∀ pid, (next.proc pid).sendQueue = (s.proc pid).sendQueue) :
    ∃ later, s.stream source target = message :: later ∧
      next.stream = s.stream.setQueue source target later := by
  refine ⟨_, by rw [State.stream_eq, head, List.cons_append], ?_⟩
  funext i j
  by_cases same : i = source ∧ j = target
  · obtain ⟨rfl, rfl⟩ := same
    rw [State.stream_eq, wire, queue, Channels.setQueue_same, Channels.setQueue_same]
  · rw [State.stream_eq, wire, queue, Channels.setQueue_other _ _ same,
      Channels.setQueue_other _ _ same, State.stream_eq]

/-- The handler of a PING or PONG in which the receiver stands. -/
def Recv.control : Recv → Recv
  | .app => .idle
  | recv => recv

variable [NeZero n]

def Msg.control (message : Msg) : Bool :=
  message ≠ .app

def State.control (s : State n) : Control n where
  chan := s.stream.select Msg.control
  main := (s.proc 0).loop
  loop pid := if pid = 0 then .outside else (s.proc pid).loop
  recv pid := (s.proc pid).recv.control
  flushCount pid := (s.proc pid).flushCount
  barrier := (s.proc 0).barrier
  sync := (s.proc 0).sync
  called := s.history.called
  answered := s.history.answered
  ponged := s.history.ponged
  pinged := s.history.pinged
  reported := s.history.reported
  marked := s.history.marked
  report := s.history.report

variable {s next : State n}

theorem control_setProc {pid : Fin n} {process : Process n}
    (proc : next.proc = Function.update s.proc pid process) : next.control =
      { chan := next.stream.select Msg.control
        main := if pid = 0 then process.loop else s.control.main
        loop := if pid = 0 then s.control.loop else Function.update s.control.loop pid process.loop
        recv := Function.update s.control.recv pid process.recv.control
        flushCount := Function.update s.control.flushCount pid process.flushCount
        barrier := if pid = 0 then process.barrier else s.control.barrier
        sync := if pid = 0 then process.sync else s.control.sync
        called := next.history.called
        answered := next.history.answered
        ponged := next.history.ponged
        pinged := next.history.pinged
        reported := next.history.reported
        marked := next.history.marked
        report := next.history.report } := by
  have here : next.proc pid = process := by rw [proc, Function.update_self]
  have elsewhere : ∀ q, q ≠ pid → next.proc q = s.proc q := by
    intro q different
    rw [proc, Function.update_of_ne different]
  have atHost : next.proc 0 = if pid = 0 then process else s.proc 0 := by
    split
    · rename_i host
      exact host ▸ here
    · rename_i client
      exact elsewhere 0 (Ne.symm client)
  refine Control.ext rfl ?_ ?_ ?_ ?_ ?_ ?_ rfl rfl rfl rfl rfl rfl rfl
  · simp only [State.control, atHost]
    split <;> rfl
  · funext q
    by_cases host : pid = 0 <;> by_cases same : q = pid <;>
      simp_all [State.control]
  · funext q
    by_cases same : q = pid <;> simp_all [State.control]
  · funext q
    by_cases same : q = pid <;> simp_all [State.control]
  · simp only [State.control, atHost]
    split <;> rfl
  · simp only [State.control, atHost]
    split <;> rfl

@[simp]
theorem update_recv (pid : Fin n) :
    Function.update s.control.recv pid (s.proc pid).recv.control = s.control.recv :=
  Function.update_eq_self pid s.control.recv

@[simp]
theorem update_flushCount (pid : Fin n) :
    Function.update s.control.flushCount pid (s.proc pid).flushCount = s.control.flushCount :=
  Function.update_eq_self pid s.control.flushCount

theorem update_loop {pid : Fin n} (client : pid ≠ 0) :
    Function.update s.control.loop pid (s.proc pid).loop = s.control.loop :=
  Function.update_eq_self_iff.mpr (by simp [State.control, client])

theorem control_client {pid : Fin n} {process : Process n} (client : pid ≠ 0)
    (proc : next.proc = Function.update s.proc pid process) : next.control =
      { s.control with
        chan := next.stream.select Msg.control
        loop := Function.update s.control.loop pid process.loop
        recv := Function.update s.control.recv pid process.recv.control
        flushCount := Function.update s.control.flushCount pid process.flushCount
        called := next.history.called
        answered := next.history.answered
        ponged := next.history.ponged
        pinged := next.history.pinged
        reported := next.history.reported
        marked := next.history.marked
        report := next.history.report } := by
  rw [control_setProc proc]
  simp [client]

theorem control_host (process : Process n) (proc : next.proc = Function.update s.proc 0 process)
    (recv : process.recv = (s.proc 0).recv) (flushCount : process.flushCount = (s.proc 0).flushCount) :
    next.control =
      { s.control with
        chan := next.stream.select Msg.control
        main := process.loop
        barrier := process.barrier
        sync := process.sync
        called := next.history.called
        answered := next.history.answered
        ponged := next.history.ponged
        pinged := next.history.pinged
        reported := next.history.reported
        marked := next.history.marked
        report := next.history.report } := by
  rw [control_setProc proc]
  simp [recv, flushCount]

theorem control_same {pid : Fin n} {process : Process n}
    (proc : next.proc = Function.update s.proc pid process)
    (chan : next.stream.select Msg.control = s.stream.select Msg.control)
    (loop : process.loop = (s.proc pid).loop)
    (recv : process.recv.control = (s.proc pid).recv.control)
    (flushCount : process.flushCount = (s.proc pid).flushCount)
    (barrier : process.barrier = (s.proc pid).barrier) (sync : process.sync = (s.proc pid).sync)
    (history : next.history = { s.history with
      apps := next.history.apps, stale := next.history.stale }) :
    next.control = s.control := by
  rw [control_setProc proc, history, chan, loop, recv, flushCount, barrier, sync]
  by_cases host : pid = 0
  · subst host
    simp [State.control]
  · simp only [host, if_false, update_loop host, update_recv, update_flushCount]
    rfl

/-- A step keeps what `Control` shows, or is a step of the round. -/
def Simulates (s next : State n) : Prop :=
  next.control = s.control ∨ s.control.Step next.control

theorem simulates_client {pid : Fin n} {process : Process n} {chan : Channels (Fin n) Msg}
    (client : pid ≠ 0) (proc : next.proc = Function.update s.proc pid process)
    (sent : next.stream.select Msg.control = chan)
    (stepped : s.control.Step { s.control with
      chan := chan
      loop := Function.update s.control.loop pid process.loop
      recv := Function.update s.control.recv pid process.recv.control
      flushCount := Function.update s.control.flushCount pid process.flushCount
      called := next.history.called
      answered := next.history.answered
      ponged := next.history.ponged
      pinged := next.history.pinged
      reported := next.history.reported
      marked := next.history.marked
      report := next.history.report }) : Simulates s next := by
  right
  have equal := control_client client proc
  rw [sent] at equal
  rw [equal]
  exact stepped

theorem simulates_host {chan : Channels (Fin n) Msg} (process : Process n)
    (proc : next.proc = Function.update s.proc 0 process)
    (recv : process.recv = (s.proc 0).recv) (flushCount : process.flushCount = (s.proc 0).flushCount)
    (sent : next.stream.select Msg.control = chan)
    (stepped : s.control.Step { s.control with
      chan := chan
      main := process.loop
      barrier := process.barrier
      sync := process.sync
      called := next.history.called
      answered := next.history.answered
      ponged := next.history.ponged
      pinged := next.history.pinged
      reported := next.history.reported
      marked := next.history.marked
      report := next.history.report }) : Simulates s next := by
  right
  have equal := control_host process proc recv flushCount
  rw [sent] at equal
  rw [equal]
  exact stepped

theorem Protocol.head_cases_of_chan {c : Control n} (protocol : Protocol c) {i j : Fin n}
    {message : Msg} {rest : List Msg} (head : c.chan i j = message :: rest) :
    (i = 0 ∧ j ≠ 0 ∧ (message = .schedPing ∨ message = .distPing)) ∨
      (i ≠ 0 ∧ j = 0 ∧ (message = .schedPong ∨ ∃ number, message = .distPong number)) ∨
      (i ≠ 0 ∧ j ≠ 0 ∧ i ≠ j ∧ message = .distPong 0) := by
  by_cases same : i = j
  · subst same
    simp [protocol.self i] at head
  by_cases source : i = 0
  · subst source
    have client : j ≠ 0 := Ne.symm same
    have content := protocol.fromHost j client
    rw [head] at content
    rcases Protocol.head_cases content with ⟨-, isPing, -⟩ | ⟨-, -, isPing, -⟩
    · exact .inl ⟨rfl, client, .inl isPing⟩
    · exact .inl ⟨rfl, client, .inr isPing⟩
  by_cases target : j = 0
  · subst target
    have content := protocol.toHost i source
    rw [head] at content
    rcases Protocol.head_cases content with ⟨-, isPong, -⟩ | ⟨-, -, isPong, -⟩
    · exact .inr (.inl ⟨source, rfl, .inl isPong⟩)
    · exact .inr (.inl ⟨source, rfl, .inr ⟨_, isPong⟩⟩)
  · have content := protocol.between i j source target same
    rw [head] at content
    split at content
    · cases content
      exact .inr (.inr ⟨source, target, same, rfl⟩)
    · cases content

theorem control_receive {source target : Fin n} {message : Msg} {rest : List Msg}
    (head : s.wire source target = message :: rest)
    (wire : next.wire = s.wire.setQueue source target rest)
    (queue : ∀ pid, (next.proc pid).sendQueue = (s.proc pid).sendQueue) :
    (message = .app ∧ next.stream.select Msg.control = s.control.chan) ∨
      ∃ later, s.control.chan source target = message :: later ∧
        next.stream.select Msg.control = s.control.chan.setQueue source target later := by
  obtain ⟨later, content, stream⟩ := stream_receive head wire queue
  rw [stream, Channels.select_setQueue]
  by_cases isApp : message = .app
  · left
    have same : later.filter Msg.control = s.stream.select Msg.control source target := by
      rw [Channels.select, content, isApp, List.filter_cons_of_neg (by simp [Msg.control])]
    rw [same, Channels.setQueue_self]
    exact ⟨isApp, rfl⟩
  · right
    refine ⟨later.filter Msg.control, ?_, rfl⟩
    have isControl : message.control = true := by simp [Msg.control, isApp]
    change (s.stream source target).filter Msg.control = _
    rw [content, List.filter_cons_of_pos isControl]

/-- The receiver changes the state of its process only, and leaves the send queue
alone. -/
theorem recvMsg_eq (s : State n) (source target : Fin n) (rest : List Msg) (message : Msg) :
    ∃ process history, s.recvMsg source target rest message =
        { proc := Function.update s.proc target process
          wire := s.wire.setQueue source target rest
          history := history } ∧
      process.sendQueue = (s.proc target).sendQueue := by
  cases message with
  | app => exact ⟨_, _, rfl, rfl⟩
  | schedPing => exact ⟨_, _, rfl, rfl⟩
  | schedPong => exact ⟨_, _, rfl, rfl⟩
  | distPing =>
      simp only [State.recvMsg]
      split <;> exact ⟨_, _, rfl, rfl⟩
  | distPong nMsgs =>
      simp only [State.recvMsg]
      split <;> exact ⟨_, _, rfl, rfl⟩

theorem simulates_recvMsg (protocol : Protocol s.control) {source target : Fin n} {message : Msg}
    {rest : List Msg} (idle : (s.proc target).recv = .idle)
    (head : s.wire source target = message :: rest) :
    Simulates s (s.recvMsg source target rest message) := by
  have idleControl : s.control.recv target = .idle := by simp [State.control, idle, Recv.control]
  obtain ⟨process, history, equal, sameQueue⟩ := recvMsg_eq s source target rest message
  have queue : ∀ pid, ((s.recvMsg source target rest message).proc pid).sendQueue =
      (s.proc pid).sendQueue := by
    intro pid
    rw [equal]
    by_cases same : pid = target
    · subst same
      simpa using sameQueue
    · simp [same]
  have wire : (s.recvMsg source target rest message).wire = s.wire.setQueue source target rest := by
    rw [equal]
  rcases control_receive head wire queue with ⟨rfl, chan⟩ | ⟨later, content, chan⟩
  · left
    have proc : (s.recvMsg source target rest .app).proc = Function.update s.proc target
      { s.proc target with nMsgsRecvd := (s.proc target).nMsgsRecvd + 1, recv := .app } := rfl
    exact control_same proc chan rfl (by simp [idle, Recv.control]) rfl rfl rfl rfl
  rcases protocol.head_cases_of_chan content with
    ⟨rfl, client, rfl | rfl⟩ | ⟨client, rfl, rfl | ⟨number, rfl⟩⟩ |
      ⟨sourceClient, targetClient, different, rfl⟩
  · refine simulates_client client rfl chan ?_
    simp only [update_recv, update_flushCount]
    exact .schedPing client content
  · by_cases two : n = 2
    · simp only [State.recvMsg, if_pos two] at chan ⊢
      refine simulates_client client rfl chan ?_
      simp only [update_loop client]
      exact .distPingTwo client two content idleControl
    · simp only [State.recvMsg, if_neg two] at chan ⊢
      refine simulates_client client rfl chan ?_
      simp only [update_loop client, update_flushCount]
      exact .distPing client two content idleControl
  · exact simulates_host _ rfl rfl rfl chan (.schedPong client content)
  · simp only [State.recvMsg, ne_eq, not_true_eq_false, if_false] at chan ⊢
    exact simulates_host _ rfl rfl rfl chan (.number client content)
  · simp only [State.recvMsg, ne_eq, targetClient, not_false_eq_true, if_true] at chan ⊢
    refine simulates_client targetClient rfl chan ?_
    simp only [update_loop targetClient, apply_ite Recv.control]
    exact .distPong sourceClient targetClient different content idleControl

theorem control_push {pid : Fin n} {process : Process n} {item : List (Fin n × Msg)}
    (proc : next.proc = Function.update s.proc pid process) (wire : next.wire = s.wire)
    (queue : process.sendQueue = (s.proc pid).sendQueue ++ [item]) :
    next.stream.select Msg.control =
      s.control.chan.send pid (item.filter fun pair => pair.2.control) := by
  have pushed : next.stream = s.stream.send pid item := by
    apply stream_push wire
    · rw [proc, Function.update_self, queue]
    · intro q different
      rw [proc, Function.update_of_ne different]
  rw [pushed, Channels.select_send]
  rfl

theorem control_keep {pid : Fin n} {process : Process n}
    (proc : next.proc = Function.update s.proc pid process) (wire : next.wire = s.wire)
    (queue : process.sendQueue = (s.proc pid).sendQueue) :
    next.stream.select Msg.control = s.control.chan := by
  have same : next.stream = s.stream := by
    apply stream_congr wire
    intro q
    rw [proc]
    by_cases here : q = pid
    · subst here
      simpa using queue
    · simp [here]
  rw [same]
  rfl

omit [NeZero n] in
theorem filter_broadcast {self : Fin n} {message : Msg} (control : message.control) :
    (broadcast self message).filter (fun pair => pair.2.control) = broadcast self message := by
  simp [broadcast, control]

theorem filter_broadcastClients {self : Fin n} {message : Msg} (control : message.control) :
    (broadcastClients self message).filter (fun pair => pair.2.control) =
      broadcastClients self message := by
  rw [List.filter_eq_self]
  intro pair membership
  obtain ⟨receiver, -, rfl⟩ := List.mem_map.mp membership
  exact control

theorem simulates_resume (protocol : Protocol s.control) {pid : Fin n}
    (resumed : s.resume pid = some next) : Simulates s next := by
  have client : ∀ {recv}, recv ≠ .idle → s.control.recv pid = recv → pid ≠ 0 := by
    rintro recv busy control rfl
    exact busy (control.symm.trans protocol.host.2.2)
  unfold State.resume at resumed
  dsimp only at resumed
  split at resumed
  · rename_i pending handling
    have control : s.control.recv pid = .ping pending := by
      simp [State.control, handling, Recv.control]
    have isClient := client (by simp) control
    cases resumed
    refine simulates_client isClient rfl (control_push rfl rfl rfl) ?_
    have sum : (if (s.proc pid).flushCount = 2 - (n : Int) then 0
        else (s.proc pid).flushCount + ((n : Int) - 2)) = s.control.flushCount pid + (n - 2) := by
      split
      · rename_i last
        simp [State.control, last]
      · rfl
    simp only [Process.push, update_loop isClient, apply_ite Recv.control, sum]
    rw [filter_broadcastClients rfl]
    exact .pongs control
  · rename_i handling
    have control : s.control.recv pid = .test := by
      simp [State.control, handling, Recv.control]
    have isClient := client (by simp) control
    cases resumed
    refine simulates_client isClient rfl (control_keep rfl rfl rfl) ?_
    simp only [update_loop isClient, update_flushCount]
    exact .test control
  · rename_i pending handling
    have control : s.control.recv pid = .pong pending := by
      simp [State.control, handling, Recv.control]
    have isClient := client (by simp) control
    cases resumed
    refine simulates_client isClient rfl (control_push rfl rfl rfl) ?_
    simp only [Process.push, update_loop isClient, update_flushCount]
    exact .pong control
  · cases resumed

theorem simulates_waitClient (protocol : Protocol s.control) {pid : Fin n} (client : pid ≠ 0)
    (waited : s.waitLoop pid = some next) : Simulates s next := by
  have loop : s.control.loop pid = (s.proc pid).loop := by simp [State.control, client]
  have inside : (s.proc pid).loop ≠ .outside → (s.proc pid).loop.Inside := by
    intro notOutside
    have known := protocol.clients pid client
    rw [loop] at known
    split at known
    · exact known
    · exact absurd known notOutside
  have move : ∀ {process : Process n} {next : State n}, (s.proc pid).loop ≠ .outside →
      next = s.setProc pid process → process.loop.Inside →
      process.sendQueue = (s.proc pid).sendQueue → process.recv = (s.proc pid).recv →
      process.flushCount = (s.proc pid).flushCount → Simulates s next := by
    rintro process _ notOutside rfl after queue recv flushCount
    refine simulates_client client rfl (control_keep rfl rfl queue) ?_
    simp only [recv, flushCount, update_recv, update_flushCount]
    exact .waitClient client (loop ▸ inside notOutside) after
  unfold State.waitLoop at waited
  dsimp only at waited
  split at waited
  · cases waited
  · rename_i isInit
    rw [if_neg client] at waited
    exact move (by simp [isInit]) (Option.some.inj waited).symm trivial rfl rfl rfl
  · rename_i isWaitAll
    split at waited
    · exact move (by simp [isWaitAll]) (Option.some.inj waited).symm trivial rfl rfl rfl
    · cases waited
  · rename_i isPending
    refine move (by simp [isPending]) (Option.some.inj waited).symm ?_ rfl rfl rfl
    dsimp only
    split <;> trivial
  · rename_i popped isFini
    rw [if_pos client] at waited
    cases waited
    refine simulates_client client rfl (control_push rfl rfl rfl) ?_
    simp only [Process.push, update_recv, update_flushCount]
    exact .answer client (loop ▸ inside (by simp [isFini]))
  all_goals
    rename_i impossible
    have known := inside (by simp [impossible])
    rw [impossible] at known
    exact absurd known id

theorem simulates_waitHost (waited : s.waitLoop 0 = some next) :
    Simulates s next ∨ (s.proc 0).loop = .exchange ∧ (s.proc 0).nMsgsRecvd ≤ 2 * n - 2 ∧
      next = s.setProc 0 { s.proc 0 with nMsgsRecvd := 0, loop := .left } := by
  have main : s.control.main = (s.proc 0).loop := rfl
  unfold State.waitLoop at waited
  dsimp only at waited
  split at waited
  · cases waited
  · rename_i isInit
    rw [if_pos rfl] at waited
    cases waited
    left
    refine simulates_host _ rfl rfl rfl (control_push rfl rfl rfl) ?_
    rw [filter_broadcast rfl]
    exact .start isInit
  · rename_i isWaitAll
    split at waited
    · cases waited
      left
      refine simulates_host _ rfl rfl rfl (control_keep rfl rfl rfl) ?_
      exact .wait (main ▸ isWaitAll ▸ trivial) trivial
    · cases waited
  · rename_i isPending
    cases waited
    left
    refine simulates_host _ rfl rfl rfl (control_keep rfl rfl rfl) ?_
    refine .wait (main ▸ isPending ▸ trivial) ?_
    dsimp only
    split
    · trivial
    · rfl
  · rename_i popped isFini
    simp only [ne_eq, not_true_eq_false, if_false] at waited
    split at waited
    · rename_i fewer
      split at waited
      · rename_i available
        cases waited
        left
        exact simulates_host _ rfl rfl rfl (control_keep rfl rfl rfl)
          (.popBarrier isFini fewer available)
      · cases waited
    · rename_i notFewer
      cases waited
      left
      exact simulates_host _ rfl rfl rfl (control_keep rfl rfl rfl)
        (.gathered isFini (Nat.le_of_not_lt notFewer))
  · rename_i isFlush
    cases waited
    left
    refine simulates_host _ rfl rfl rfl (control_push rfl rfl rfl) ?_
    rw [filter_broadcast rfl]
    exact .flush isFlush
  · rename_i popped isSync
    split at waited
    · rename_i fewer
      split at waited
      · rename_i available
        cases waited
        left
        exact simulates_host _ rfl rfl rfl (control_keep rfl rfl rfl)
          (.popSync isSync fewer available)
      · cases waited
    · rename_i notFewer
      cases waited
      left
      exact simulates_host _ rfl rfl rfl (control_keep rfl rfl rfl)
        (.flushed isSync (Nat.le_of_not_lt notFewer))
  · rename_i isExchange
    split at waited
    · cases waited
      left
      exact simulates_host _ rfl rfl rfl (control_keep rfl rfl rfl) (.again isExchange)
    · rename_i few
      right
      exact ⟨isExchange, Nat.le_of_not_lt few, (Option.some.inj waited).symm⟩
  · cases waited

structure Leaves (s next : State n) : Prop where
  exchange : (s.proc 0).loop = .exchange
  few : (s.proc 0).nMsgsRecvd ≤ 2 * n - 2
  next_eq : next = s.setProc 0 { s.proc 0 with nMsgsRecvd := 0, loop := .left }

theorem control_send {pid : Fin n} (receivers : List (Fin n)) :
    (s.setProc pid ((s.proc pid).push (receivers.map fun receiver => (receiver, .app)))).control =
      s.control := by
  have noControl : (receivers.map fun receiver => (receiver, Msg.app)).filter
      (fun pair => pair.2.control) = [] := by
    simp [Msg.control]
  refine control_same rfl ?_ rfl rfl rfl rfl rfl rfl
  have pushed : (s.setProc pid ((s.proc pid).push (receivers.map fun receiver =>
      (receiver, .app)))).stream.select Msg.control = s.control.chan.send pid
        ((receivers.map fun receiver => (receiver, Msg.app)).filter fun pair => pair.2.control) :=
    control_push rfl rfl rfl
  rw [pushed, noControl, Channels.send_nil]
  rfl

theorem simulates_step (protocol : Protocol s.control) {action : Action n}
    (stepped : step s action = some next) : Simulates s next ∨ Leaves s next := by
  cases action with
  | schedule pid =>
      simp only [CnC.Wait.step, Option.ite_none_right_eq_some, Option.some.injEq] at stepped
      obtain ⟨-, rfl⟩ := stepped
      exact .inl (.inl (control_same rfl (control_keep rfl rfl rfl) rfl rfl rfl rfl rfl rfl))
  | finish pid =>
      simp only [CnC.Wait.step, Option.ite_none_right_eq_some, Option.some.injEq] at stepped
      obtain ⟨-, rfl⟩ := stepped
      exact .inl (.inl (control_same rfl (control_keep rfl rfl rfl) rfl rfl rfl rfl rfl rfl))
  | send pid receivers =>
      simp only [CnC.Wait.step, Option.ite_none_right_eq_some, Option.some.injEq] at stepped
      obtain ⟨-, rfl⟩ := stepped
      exact .inl (.inl (control_send _))
  | transmit pid =>
      simp only [CnC.Wait.step] at stepped
      split at stepped
      · cases stepped
      · rename_i item rest queue
        cases stepped
        refine .inl (.inl (control_same rfl ?_ rfl rfl rfl rfl rfl rfl))
        rw [stream_transmit queue rfl (by simp [State.setProc])]
        intro q different
        simp [State.setProc, different]
  | receive source target =>
      simp only [CnC.Wait.step, Option.ite_none_right_eq_some] at stepped
      obtain ⟨idle, received⟩ := stepped
      split at received
      · cases received
      · rename_i head
        cases received
        exact .inl (simulates_recvMsg protocol idle head)
  | handled pid =>
      simp only [CnC.Wait.step, State.handled, Option.ite_none_right_eq_some,
        Option.some.injEq] at stepped
      obtain ⟨handling, rfl⟩ := stepped
      refine .inl (.inl (control_same rfl (control_keep rfl rfl rfl) rfl ?_ rfl rfl rfl rfl))
      simp [handling, Recv.control]
  | resume pid => exact .inl (simulates_resume protocol stepped)
  | waitLoop pid =>
      by_cases host : pid = 0
      · subst host
        rcases simulates_waitHost stepped with simulates | ⟨exchange, few, left⟩
        · exact .inl simulates
        · exact .inr ⟨exchange, few, left⟩
      · exact .inl (simulates_waitClient protocol host stepped)

theorem Simulates.protocol (simulates : Simulates s next) (protocol : Protocol s.control) :
    Protocol next.control := by
  rcases simulates with same | stepped
  · exact same ▸ protocol
  · exact protocol.step stepped

end CnC.Wait
