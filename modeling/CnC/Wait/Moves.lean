import CnC.Wait.Count

/-!
# Messages of a step

In a step a process sends messages or receives one.  Only active processes send
application messages.
-/

namespace CnC.Wait

open Network Transition

variable {n : Nat}

/-- With its PING or PONG of the distributor a process promises to send no other
messages. -/
def Msg.mark : Msg → Bool
  | .distPing => true
  | .distPong _ => true
  | _ => false

def Sealed : Bool → List Msg → Prop
  | _, [] => True
  | marked, message :: rest =>
      (marked → message ≠ .app) ∧ Sealed (marked || message.mark) rest

theorem Sealed.of_noApp {marked : Bool} {messages : List Msg} (noApp : .app ∉ messages) :
    Sealed marked messages := by
  induction messages generalizing marked with
  | nil => trivial
  | cons message rest inductionHypothesis =>
      rw [List.mem_cons, not_or] at noApp
      exact ⟨fun _ isApp => noApp.1 isApp.symm, inductionHypothesis noApp.2⟩

theorem Sealed.append {marked : Bool} {messages more : List Msg} (before : Sealed marked messages)
    (noApp : .app ∉ more) : Sealed marked (messages ++ more) := by
  induction messages generalizing marked with
  | nil => exact .of_noApp noApp
  | cons message rest inductionHypothesis => exact ⟨before.1, inductionHypothesis before.2⟩

theorem Sealed.of_unmarked {messages : List Msg} (unmarked : ∀ message ∈ messages, ¬ message.mark) :
    Sealed false messages := by
  induction messages with
  | nil => trivial
  | cons message rest inductionHypothesis =>
      rw [List.forall_mem_cons] at unmarked
      have noMark : (false || message.mark) = false := by simpa using unmarked.1
      refine ⟨fun marked => absurd marked (by simp), ?_⟩
      rw [noMark]
      exact inductionHypothesis unmarked.2

theorem Sealed.app_notMem {messages : List Msg} (isSealed : Sealed true messages) :
    .app ∉ messages := by
  induction messages with
  | nil => exact List.not_mem_nil
  | cons message rest inductionHypothesis =>
      rw [List.mem_cons, not_or]
      exact ⟨fun isApp => isSealed.1 rfl isApp.symm, inductionHypothesis isSealed.2⟩

variable {s next : State n}

/-- What a process may send: application messages if it is active, or else PINGs
and PONGs. -/
def MaySend (s : State n) (pid : Fin n) (item : List (Fin n × Msg)) : Prop :=
  (∀ pair ∈ item, pair.1 ≠ pid) ∧
    ((∀ pair ∈ item, pair.2 ≠ .app) ∨ ((s.proc pid).Active ∧ ∀ pair ∈ item, pair.2 = .app))

/-- A process sends messages or receives one.  Steps which send nothing are those
which send the empty list. -/
inductive Moves (s next : State n) : Prop
  | send (pid : Fin n) (item : List (Fin n × Msg)) :
      next.stream = s.stream.send pid item → MaySend s pid item →
      next.history.marked = s.history.marked → Moves s next
  | receive (source target : Fin n) (message : Msg) (later : List Msg) :
      s.stream source target = message :: later →
      next.stream = s.stream.setQueue source target later →
      (∀ i j, i ∈ next.history.marked j ↔
        (j = target ∧ i = source ∧ message.mark) ∨ i ∈ s.history.marked j) → Moves s next

theorem moves_keep {pid : Fin n} {process : Process n}
    (proc : next.proc = Function.update s.proc pid process) (wire : next.wire = s.wire)
    (queue : process.sendQueue = (s.proc pid).sendQueue)
    (marked : next.history.marked = s.history.marked) : Moves s next := by
  refine .send pid [] ?_ ⟨by simp, .inl (by simp)⟩ marked
  rw [Channels.send_nil]
  apply stream_congr wire
  intro q
  rw [proc]
  by_cases same : q = pid
  · subst same
    rw [Function.update_self, queue]
  · rw [Function.update_of_ne same]

theorem moves_push {pid : Fin n} {process : Process n} {item : List (Fin n × Msg)}
    (proc : next.proc = Function.update s.proc pid process) (wire : next.wire = s.wire)
    (queue : process.sendQueue = (s.proc pid).sendQueue ++ [item])
    (allowed : MaySend s pid item)
    (marked : next.history.marked = s.history.marked) : Moves s next := by
  refine .send pid item ?_ allowed marked
  apply stream_push wire
  · rw [proc, Function.update_self, queue]
  · intro q different
    rw [proc, Function.update_of_ne different]

variable [NeZero n]

theorem moves_receive {source target : Fin n} {message : Msg} {rest : List Msg}
    (head : s.wire source target = message :: rest) :
    Moves s (s.recvMsg source target rest message) := by
  obtain ⟨process, history, equal, sameQueue⟩ := recvMsg_eq s source target rest message
  have queue : ∀ pid, ((s.recvMsg source target rest message).proc pid).sendQueue =
      (s.proc pid).sendQueue := by
    intro pid
    rw [equal]
    by_cases same : pid = target
    · subst same
      simpa using sameQueue
    · simp [same]
  obtain ⟨later, content, stream⟩ := stream_receive head (by rw [equal]) queue
  refine .receive source target message later content stream fun i j => ?_
  cases message with
  | app => simp [State.recvMsg, History.count, Msg.mark]
  | schedPing => simp [State.recvMsg, Msg.mark]
  | schedPong => simp [State.recvMsg, Msg.mark]
  | distPing =>
      simp only [State.recvMsg]
      split <;> simp [History.mark, Protocol.mem_mark, Msg.mark]
  | distPong nMsgs =>
      simp only [State.recvMsg]
      split <;> simp [History.mark, Protocol.mem_mark, Msg.mark]

omit [NeZero n] in
theorem noApp_of_map {message : Msg} (notApp : message ≠ .app) (receivers : List (Fin n)) :
    ∀ pair ∈ receivers.map fun receiver => (receiver, message), pair.2 ≠ .app := by
  intro pair membership
  obtain ⟨receiver, -, rfl⟩ := List.mem_map.mp membership
  exact notApp

omit [NeZero n] in
theorem maySend_of_notApp {pid : Fin n} {message : Msg} {receivers : List (Fin n)}
    (notApp : message ≠ .app) (others : ∀ receiver ∈ receivers, receiver ≠ pid) :
    MaySend s pid (receivers.map fun receiver => (receiver, message)) := by
  refine ⟨fun pair membership => ?_, .inl (noApp_of_map notApp receivers)⟩
  obtain ⟨receiver, other, rfl⟩ := List.mem_map.mp membership
  exact others receiver other

theorem maySend_host {pid : Fin n} {message : Msg} (notApp : message ≠ .app) (client : pid ≠ 0) :
    MaySend s pid [(0, message)] := by
  refine ⟨?_, .inl ?_⟩
  · simpa using client.symm
  · simpa using notApp

theorem moves_resume (protocol : Protocol s.control) {pid : Fin n}
    (resumed : s.resume pid = some next) : Moves s next := by
  cases handling : (s.proc pid).recv with
  | idle => simp [State.resume, handling] at resumed
  | app => simp [State.resume, handling] at resumed
  | ping pending =>
      simp only [State.resume, handling, Option.some.injEq] at resumed
      subst resumed
      refine moves_push rfl rfl rfl (maySend_of_notApp (by simp) ?_) rfl
      intro receiver other
      exact mem_others.mp (List.mem_filter.mp other).1
  | test =>
      simp only [State.resume, handling, Option.some.injEq] at resumed
      subst resumed
      exact moves_keep rfl rfl rfl rfl
  | pong pending =>
      have client : pid ≠ 0 := by
        rintro rfl
        have idle := protocol.host.2.2
        simp [State.control, handling, Recv.control] at idle
      simp only [State.resume, handling, Option.some.injEq] at resumed
      subst resumed
      exact moves_push rfl rfl rfl (maySend_host (by simp) client) rfl

theorem moves_waitLoop {pid : Fin n} (waited : s.waitLoop pid = some next)
    (early : (s.proc pid).loop ≠ .exchange) : Moves s next := by
  have ping : ∀ message : Msg, message ≠ .app → MaySend s pid (broadcast pid message) :=
    fun message notApp => maySend_of_notApp notApp fun receiver => mem_others.mp
  unfold State.waitLoop at waited
  dsimp only at waited
  split at waited
  · cases waited
  · cases waited
    split
    · exact moves_push rfl rfl rfl (ping _ (by simp)) rfl
    · exact moves_keep rfl rfl rfl rfl
  · split at waited <;> cases waited
    exact moves_keep rfl rfl rfl rfl
  · cases waited
    exact moves_keep rfl rfl rfl rfl
  · split at waited
    · rename_i client
      cases waited
      exact moves_push rfl rfl rfl (maySend_host (by simp) client) rfl
    · split at waited
      · split at waited <;> cases waited
        exact moves_keep rfl rfl rfl rfl
      · cases waited
        exact moves_keep rfl rfl rfl rfl
  · cases waited
    exact moves_push rfl rfl rfl (ping _ (by simp)) rfl
  · split at waited
    · split at waited <;> cases waited
      exact moves_keep rfl rfl rfl rfl
    · cases waited
      exact moves_keep rfl rfl rfl rfl
  · rename_i exchange
    exact absurd exchange early
  · cases waited

theorem moves_step (protocol : Protocol s.control) {action : Action n}
    (stepped : step s action = some next)
    (early : action = .waitLoop 0 → (s.proc 0).loop ≠ .exchange) : Moves s next := by
  cases action with
  | schedule pid =>
      simp only [CnC.Wait.step, Option.ite_none_right_eq_some, Option.some.injEq] at stepped
      obtain ⟨-, rfl⟩ := stepped
      exact moves_keep rfl rfl rfl rfl
  | finish pid =>
      simp only [CnC.Wait.step, Option.ite_none_right_eq_some, Option.some.injEq] at stepped
      obtain ⟨-, rfl⟩ := stepped
      exact moves_keep rfl rfl rfl rfl
  | send pid receivers =>
      simp only [CnC.Wait.step, Option.ite_none_right_eq_some, Option.some.injEq] at stepped
      obtain ⟨active, rfl⟩ := stepped
      refine moves_push rfl rfl rfl ⟨fun pair membership => ?_, .inr ⟨active, ?_⟩⟩ rfl
      · obtain ⟨receiver, other, rfl⟩ := List.mem_map.mp membership
        simpa using (List.mem_filter.mp other).2
      · intro pair membership
        obtain ⟨receiver, -, rfl⟩ := List.mem_map.mp membership
        rfl
  | transmit pid =>
      simp only [CnC.Wait.step] at stepped
      split at stepped
      · cases stepped
      · rename_i item rest queue
        cases stepped
        refine .send pid [] ?_ ⟨by simp, .inl (by simp)⟩ rfl
        rw [Channels.send_nil]
        apply stream_transmit queue rfl (by simp [State.setProc])
        intro q different
        simp [State.setProc, different]
  | receive source target =>
      simp only [CnC.Wait.step, Option.ite_none_right_eq_some] at stepped
      obtain ⟨idle, received⟩ := stepped
      split at received
      · cases received
      · rename_i head
        cases received
        exact moves_receive head
  | handled pid =>
      simp only [CnC.Wait.step, State.handled, Option.ite_none_right_eq_some,
        Option.some.injEq] at stepped
      obtain ⟨-, rfl⟩ := stepped
      exact moves_keep rfl rfl rfl rfl
  | resume pid => exact moves_resume protocol stepped
  | waitLoop pid =>
      apply moves_waitLoop stepped
      by_cases host : pid = 0
      · subst host
        exact early rfl
      · exact protocol.client_early host

end CnC.Wait
