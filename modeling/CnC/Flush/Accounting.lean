import CnC.Flush.Protocol

/-!
# What a flush counts

An application message is in a queue, counted by a process, in the number which a
client sends to the host, or in the result of a flush, and in one of these places
only.  Where it is tells in which flush it is counted.
-/

namespace CnC.Flush

open Network Transition

variable {n : Nat}

def Process.occurrences (app : App n) (process : Process n) : Int :=
  process.nMsgsRecvd.count (.message app) +
    match process.recv with
    | .send nMsgs => (nMsgs.count (.message app) : Int)
    | _ => 0

def Msg.occurrences (app : App n) : Msg n → Int
  | .app other => if other = app then 1 else 0
  | .ping => 0
  | .pong nMsgs => nMsgs.count (.message app)

def State.occurrences (s : State n) (app : App n) : Int :=
  total (fun _ process => process.occurrences app) (Msg.occurrences app) s.proc s.chan +
    s.results.flatten.count (.message app)

theorem Process.occurrences_nonneg (app : App n) (process : Process n) :
    0 ≤ process.occurrences app := by
  unfold Process.occurrences
  split <;> positivity

theorem Msg.occurrences_nonneg (app : App n) (message : Msg n) : 0 ≤ message.occurrences app := by
  cases message with
  | app other =>
      simp only [Msg.occurrences]
      split <;> decide
  | ping => exact le_rfl
  | pong nMsgs => exact Int.natCast_nonneg _

theorem sum_post {app : App n} {message : Msg n} (nothing : message.occurrences app = 0)
    (receivers : List (Fin n)) :
    ((receivers.map fun receiver => (receiver, message)).map fun pair =>
      Msg.occurrences app pair.2).sum = 0 := by
  simp [Function.comp_def, nothing]

section Host

variable [NeZero n] {s : State n} {app : App n}

theorem occurrences_recvMsg {source target : Fin n} {message : Msg n} {rest : List (Msg n)}
    (idle : (s.proc target).recv = .idle) (protocol : Protocol s)
    (head : s.chan source target = message :: rest) :
    (s.recvMsg source target rest message).occurrences app = s.occurrences app := by
  have before : (s.proc target).occurrences app =
      ((s.proc target).nMsgsRecvd.count (.message app) : Int) := by
    simp [Process.occurrences, idle]
  cases message with
  | app other =>
      simp only [State.occurrences, State.recvMsg, State.setProc]
      rw [total_take _ _ _ head, before]
      simp only [Process.occurrences, Msg.occurrences, idle, List.count_cons, beq_iff_eq,
        Count.message.injEq]
      push_cast
      ring
  | ping =>
      simp only [State.occurrences, State.recvMsg]
      split
      · simp only [State.setProc]
        rw [total_take _ _ _ head, before]
        simp [Process.occurrences, Msg.occurrences]
      · simp only [State.setProc]
        rw [total_take _ _ _ head, before]
        simp [Process.occurrences, Msg.occurrences]
  | pong nMsgs =>
      simp only [State.occurrences, State.recvMsg]
      split
      · rename_i toClient
        have fromClient := protocol.lines.pong source target nMsgs (head ▸ List.mem_cons_self)
        simp only [State.setProc]
        rw [total_take _ _ _ head, before]
        simp [Process.occurrences, Msg.occurrences, fromClient.2 toClient]
      · simp only [State.setProc]
        rw [total_take _ _ _ head, before]
        simp only [Process.occurrences, Msg.occurrences, List.count_append]
        push_cast
        ring

theorem sent_resume {pid : Fin n} {pending : Bool} {next : State n}
    (resumed : s.resume pid pending = some next) : next.history.sent = s.history.sent := by
  cases recv : (s.proc pid).recv with
  | bcast =>
      simp only [State.resume, recv] at resumed
      split at resumed <;> cases resumed <;> rfl
  | idle => simp [State.resume, recv] at resumed
  | _ =>
      simp only [State.resume, recv, Option.some.injEq] at resumed
      subst resumed
      rfl

theorem occurrences_resume {pid : Fin n} {pending : Bool} {next : State n}
    (resumed : s.resume pid pending = some next) : next.occurrences app = s.occurrences app := by
  have counted : ∀ process : Process n, ((process.countPending pending).nMsgsRecvd.count
      (.message app)) = process.nMsgsRecvd.count (.message app) := by
    intro process
    unfold Process.countPending
    cases pending <;> simp
  cases recv : (s.proc pid).recv with
  | idle => simp [State.resume, recv] at resumed
  | ping =>
      simp only [State.resume, recv, Option.some.injEq] at resumed
      subst resumed
      simp only [State.occurrences, State.setProc, total_update]
      simp [Process.occurrences, recv, counted]
  | bcast =>
      have before : (s.proc pid).occurrences app =
          ((s.proc pid).nMsgsRecvd.count (.message app) : Int) := by
        simp [Process.occurrences, recv]
      simp only [State.resume, recv] at resumed
      split at resumed
      · cases resumed
        simp only [State.occurrences, State.setProc, Channels.post, total_apply, before]
        rw [sum_post rfl]
        simp [Process.occurrences]
      · cases resumed
        simp only [State.occurrences, State.setProc, Channels.post, total_apply, before]
        rw [sum_post rfl]
        simp [Process.occurrences]
  | pong =>
      simp only [State.resume, recv, Option.some.injEq] at resumed
      subst resumed
      simp only [State.occurrences, State.setProc, total_update]
      split <;> simp [Process.occurrences, recv]
  | report =>
      simp only [State.resume, recv, Option.some.injEq] at resumed
      subst resumed
      simp only [State.occurrences, State.setProc, total_update]
      simp [Process.occurrences, recv, counted]
  | exchange =>
      simp only [State.resume, recv, Option.some.injEq] at resumed
      subst resumed
      simp only [State.occurrences, State.setProc, total_update]
      simp [Process.occurrences, recv]
  | send nMsgs =>
      simp only [State.resume, recv, Option.some.injEq] at resumed
      subst resumed
      simp only [State.occurrences, State.setProc, total_apply]
      simp only [Process.occurrences, recv, List.map_cons, List.map_nil, List.sum_cons,
        List.sum_nil, Msg.occurrences]
      ring
  | push =>
      simp only [State.resume, recv, Option.some.injEq] at resumed
      subst resumed
      simp only [State.occurrences, State.setProc, total_update]
      simp [Process.occurrences, recv]

/-- The identities of messages are not used again, and each message sent is in one
place. -/
structure Conserved (s : State n) : Prop where
  fresh : ∀ app ∈ s.history.sent, app.id < s.history.sent.length
  once : ∀ app, s.occurrences app = if app ∈ s.history.sent then 1 else 0

theorem Conserved.step (conserved : Conserved s) (protocol : Protocol s) {action : Action n}
    {next : State n} (stepped : step s action = some next) : Conserved next := by
  cases action with
  | send source target =>
      simp only [CnC.Flush.step, Option.ite_none_left_eq_some, Option.some.injEq] at stepped
      obtain ⟨-, rfl⟩ := stepped
      refine ⟨?_, fun app => ?_⟩
      · intro app listed
        rw [List.length_cons]
        rcases List.mem_cons.mp listed with rfl | old
        · exact Nat.lt_succ_self _
        · exact Nat.lt_succ_of_lt (conserved.fresh app old)
      · have before := conserved.once app
        simp only [State.occurrences] at before ⊢
        simp only [total, weight_send] at before ⊢
        by_cases same : app = ⟨s.history.sent.length, source, target, s.history.pinged source⟩
        · have unsent : app ∉ s.history.sent := by
            intro listed
            have bound := conserved.fresh app listed
            rw [same] at bound
            exact lt_irrefl _ bound
          rw [if_neg unsent] at before
          rw [if_pos (by simp [same])]
          simp only [List.map_cons, List.map_nil, List.sum_cons, List.sum_nil, Msg.occurrences]
          rw [if_pos same.symm]
          linarith
        · have mem : (app ∈ (⟨s.history.sent.length, source, target, s.history.pinged source⟩ ::
              s.history.sent : List (App n))) ↔ app ∈ s.history.sent := by
            simp [same]
          simp only [List.map_cons, List.map_nil, List.sum_cons, List.sum_nil, Msg.occurrences]
          rw [if_neg (Ne.symm same)]
          simp only [mem]
          linarith
  | receive source target =>
      simp only [CnC.Flush.step, Option.ite_none_right_eq_some] at stepped
      obtain ⟨idle, received⟩ := stepped
      split at received
      · cases received
      · rename_i message rest head
        cases received
        have sent : (s.recvMsg source target rest message).history.sent = s.history.sent := by
          cases message with
          | app app => rfl
          | ping =>
              simp only [State.recvMsg]
              split <;> rfl
          | pong nMsgs =>
              simp only [State.recvMsg]
              split <;> rfl
        refine ⟨by rw [sent]; exact conserved.fresh, fun app => ?_⟩
        rw [occurrences_recvMsg idle protocol head, sent]
        exact conserved.once app
  | resume pid pending =>
      have sent := sent_resume stepped
      refine ⟨by rw [sent]; exact conserved.fresh, fun app => ?_⟩
      rw [occurrences_resume stepped, sent]
      exact conserved.once app
  | flush =>
      simp only [CnC.Flush.step] at stepped
      split at stepped
      · cases stepped
        refine ⟨conserved.fresh, fun app => Eq.trans ?_ (conserved.once app)⟩
        simp only [State.occurrences, total, Channels.post, weight_send]
        rw [sum_post rfl, add_zero]
      · cases stepped
  | pop =>
      simp only [CnC.Flush.step] at stepped
      split at stepped
      · cases stepped
      · simp only [Option.ite_none_right_eq_some, Option.some.injEq] at stepped
        obtain ⟨-, rfl⟩ := stepped
        exact ⟨conserved.fresh, conserved.once⟩
  | exchange =>
      simp only [CnC.Flush.step] at stepped
      split at stepped
      · cases stepped
      · simp only [Option.ite_none_left_eq_some, Option.some.injEq] at stepped
        obtain ⟨-, rfl⟩ := stepped
        refine ⟨conserved.fresh, fun app => Eq.trans ?_ (conserved.once app)⟩
        have counted : (s.proc 0).occurrences app =
            ((s.proc 0).nMsgsRecvd.count (.message app) : Int) := by
          rcases protocol.host with recv | recv <;> simp [Process.occurrences, recv]
        have emptied : ({ s.proc 0 with nMsgsRecvd := [] } : Process n).occurrences app = 0 := by
          rcases protocol.host with recv | recv <;> simp [Process.occurrences, recv]
        simp only [State.occurrences, State.setProc, total_update]
        rw [counted, emptied, List.flatten_append, List.count_append, List.flatten_singleton]
        push_cast
        ring

omit [NeZero n] in
theorem conserved_start : Conserved (start n) where
  fresh _ listed := by cases listed
  once app := by
    simp [State.occurrences, total, weight, start, Process.occurrences]

/-- The flush for which a message is counted, by the number of flushes which had
returned when it was received, and whether its process had reported since. -/
def due (received : Nat × Bool) : Nat :=
  received.1 + received.2.toNat

def State.Due (s : State n) (app : App n) (flush : Nat) : Prop :=
  ∃ received, s.history.received app = some received ∧ due received = flush

/-- Where the messages are: those in queues are not received and were sent after
the PINGs and PONGs which their receiver has handled; the others are counted in
the flush which their place tells. -/
structure Located (s : State n) : Prop where
  sent : ∀ app, s.history.received app ≠ none → app ∈ s.history.sent
  queued : ∀ i j app, .app app ∈ s.chan i j → s.history.received app = none
  stamped : ∀ i j, i ≠ j → Stamped stamp (s.history.marks j i) (s.chan i j)
  client : ∀ j app, j ≠ 0 → .message app ∈ (s.proc j).nMsgsRecvd →
    s.Due app (s.history.reported j)
  sending : ∀ j nMsgs app, (s.proc j).recv = .send nMsgs → .message app ∈ nMsgs →
    s.Due app (s.history.reported j)
  emptied : ∀ j nMsgs, (s.proc j).recv = .send nMsgs → (s.proc j).nMsgsRecvd = []
  pong : ∀ j nMsgs app, .pong nMsgs ∈ s.chan j 0 → .message app ∈ nMsgs →
    s.Due app s.results.length
  host : ∀ app, .message app ∈ (s.proc 0).nMsgsRecvd → s.Due app s.results.length
  results : ∀ k nMsgs app, s.results[k]? = some nMsgs → .message app ∈ nMsgs → s.Due app k

omit [NeZero n] in
theorem Conserved.notMem (conserved : Conserved s) {source target : Fin n} {rest : List (Msg n)}
    (head : s.chan source target = .app app :: rest) (i j : Fin n) :
    .app app ∉ s.chan.setQueue source target rest i j := by
  intro again
  have once := conserved.once app
  have tail := weight_tail (Msg.occurrences app) s.chan head
  have remaining := le_weight_of_mem (Msg.occurrences_nonneg app) again
  have processes : 0 ≤ ∑ pid, (s.proc pid).occurrences app :=
    Finset.sum_nonneg fun pid _ => (s.proc pid).occurrences_nonneg app
  have results : (0 : Int) ≤ s.results.flatten.count (.message app) := Int.natCast_nonneg _
  have atMost : s.occurrences app ≤ 1 := by
    rw [once]
    split <;> decide
  simp only [Msg.occurrences, if_true] at tail remaining
  simp only [State.occurrences, total] at atMost
  linarith

omit [NeZero n] in
theorem Conserved.sent_of_mem (conserved : Conserved s) {i j : Fin n}
    (membership : .app app ∈ s.chan i j) : app ∈ s.history.sent := by
  have once := conserved.once app
  have inQueue := le_weight_of_mem (Msg.occurrences_nonneg app) membership
  have processes : 0 ≤ ∑ pid, (s.proc pid).occurrences app :=
    Finset.sum_nonneg fun pid _ => (s.proc pid).occurrences_nonneg app
  have results : (0 : Int) ≤ s.results.flatten.count (.message app) := Int.natCast_nonneg _
  by_contra unsent
  rw [if_neg unsent] at once
  simp only [Msg.occurrences, if_true] at inQueue
  simp only [State.occurrences, total] at once
  linarith

namespace Located

/-- One process takes a step in which no application message is received and no
flush returns. -/
theorem keep (located : Located s) {next : State n} (pid : Fin n)
    (sent : next.history.sent = s.history.sent)
    (received : next.history.received = s.history.received)
    (results : next.results = s.results)
    (others : ∀ q, q ≠ pid → next.proc q = s.proc q ∧
      next.history.reported q = s.history.reported q)
    (queued : ∀ i j app, .app app ∈ next.chan i j → .app app ∈ s.chan i j)
    (stamped : ∀ i j, i ≠ j → Stamped stamp (next.history.marks j i) (next.chan i j))
    (counted : ∀ app, .message app ∈ (next.proc pid).nMsgsRecvd →
      s.Due app (if pid = 0 then s.results.length else next.history.reported pid))
    (sending : ∀ nMsgs, (next.proc pid).recv = .send nMsgs → (next.proc pid).nMsgsRecvd = [] ∧
      ∀ app, .message app ∈ nMsgs → s.Due app (next.history.reported pid))
    (pong : ∀ j nMsgs app, .pong nMsgs ∈ next.chan j 0 → .message app ∈ nMsgs →
      s.Due app s.results.length) : Located next := by
  have same : ∀ {app flush}, s.Due app flush → next.Due app flush := by
    rintro app flush ⟨when_, found, isDue⟩
    exact ⟨when_, by rw [received]; exact found, isDue⟩
  refine ⟨?_, ?_, stamped, ?_, ?_, ?_, ?_, ?_, ?_⟩
  · rw [sent, received]
    exact located.sent
  · intro i j app membership
    rw [received]
    exact located.queued i j app (queued i j app membership)
  · intro j app isClient membership
    by_cases here : j = pid
    · subst here
      have found := counted app membership
      rw [if_neg isClient] at found
      exact same found
    · obtain ⟨sameProc, sameReported⟩ := others j here
      rw [sameProc] at membership
      rw [sameReported]
      exact same (located.client j app isClient membership)
  · intro j nMsgs app recv membership
    by_cases here : j = pid
    · subst here
      exact same ((sending nMsgs recv).2 app membership)
    · obtain ⟨sameProc, sameReported⟩ := others j here
      rw [sameProc] at recv
      rw [sameReported]
      exact same (located.sending j nMsgs app recv membership)
  · intro j nMsgs recv
    by_cases here : j = pid
    · subst here
      exact (sending nMsgs recv).1
    · rw [(others j here).1] at recv ⊢
      exact located.emptied j nMsgs recv
  · intro j nMsgs app membership inside
    rw [results]
    exact same (pong j nMsgs app membership inside)
  · intro app membership
    rw [results]
    by_cases here : pid = 0
    · subst here
      have found := counted app membership
      rw [if_pos rfl] at found
      exact same found
    · rw [(others 0 (Ne.symm here)).1] at membership
      exact same (located.host app membership)
  · rw [results]
    exact fun k nMsgs app found inside => same (located.results k nMsgs app found inside)

theorem counted (located : Located s) (pid : Fin n) (app : App n)
    (membership : .message app ∈ (s.proc pid).nMsgsRecvd) :
    s.Due app (if pid = 0 then s.results.length else s.history.reported pid) := by
  split
  · rename_i host
    subst host
    exact located.host app membership
  · rename_i isClient
    exact located.client pid app isClient membership

theorem take_stamped (located : Located s) {source target : Fin n} {message : Msg n}
    {rest : List (Msg n)} (head : s.chan source target = message :: rest)
    (marker : stamp message = none) (i j : Fin n) (different : i ≠ j) :
    Stamped stamp ((s.history.mark source target).marks j i)
      (s.chan.setQueue source target rest i j) := by
  have before := located.stamped i j different
  by_cases same : i = source ∧ j = target
  · obtain ⟨rfl, rfl⟩ := same
    rw [Channels.setQueue_same]
    rw [head] at before
    simpa [History.mark] using before.tail_marker marker
  · rw [Channels.setQueue_other _ _ same]
    by_cases toTarget : j = target
    · subst toTarget
      have notSource : i ≠ source := fun fromSource => same ⟨fromSource, rfl⟩
      simpa [History.mark, notSource] using before
    · simpa [History.mark, toTarget] using before

theorem receivePing (located : Located s) {source target : Fin n} {rest : List (Msg n)}
    (head : s.chan source target = .ping :: rest) :
    Located (s.recvMsg source target rest .ping) := by
  have stamped := located.take_stamped head rfl
  have old : ∀ i j message, message ∈ s.chan.setQueue source target rest i j →
      message ∈ s.chan i j :=
    fun i j message => Channels.mem_of_mem_setQueue_tail head
  have counted := located.counted target
  simp only [State.recvMsg]
  split
  · refine located.keep target rfl rfl rfl ?_ (fun i j app => old i j _) stamped ?_ ?_
      fun j nMsgs app membership => located.pong j nMsgs app (old j 0 _ membership)
    · exact fun q different => ⟨by simp [State.setProc, different], rfl⟩
    · simpa [State.setProc, History.mark, History.ping] using counted
    · simp [State.setProc]
  · refine located.keep target rfl rfl rfl ?_ (fun i j app => old i j _) stamped ?_ ?_
      fun j nMsgs app membership => located.pong j nMsgs app (old j 0 _ membership)
    · exact fun q different => ⟨by simp [State.setProc, different], rfl⟩
    · simpa [State.setProc, History.mark, History.ping] using counted
    · simp [State.setProc]

theorem receivePong (located : Located s) {source target : Fin n} {nMsgs : List (Count n)}
    {rest : List (Msg n)} (head : s.chan source target = .pong nMsgs :: rest) :
    Located (s.recvMsg source target rest (.pong nMsgs)) := by
  have stamped := located.take_stamped head rfl
  have old : ∀ i j message, message ∈ s.chan.setQueue source target rest i j →
      message ∈ s.chan i j :=
    fun i j message => Channels.mem_of_mem_setQueue_tail head
  simp only [State.recvMsg]
  split
  · refine located.keep target rfl rfl rfl ?_ (fun i j app => old i j _) stamped ?_ ?_
      fun j nMsgs app membership => located.pong j nMsgs app (old j 0 _ membership)
    · exact fun q different => ⟨by simp [State.setProc, different], rfl⟩
    · simpa [State.setProc, History.mark] using located.counted target
    · simp [State.setProc]
  · rename_i toHost
    obtain rfl : target = 0 := by simpa using toHost
    refine located.keep 0 rfl rfl rfl ?_ (fun i j app => old i j _) stamped ?_ ?_
      fun j nMsgs app membership => located.pong j nMsgs app (old j 0 _ membership)
    · exact fun q different => ⟨by simp [State.setProc, different], rfl⟩
    · intro app membership
      rw [if_pos rfl]
      simp only [State.setProc, Function.update_self, List.mem_append] at membership
      rcases membership with new | before
      · exact located.pong source nMsgs app (head ▸ List.mem_cons_self) new
      · exact located.host app before
    · simp [State.setProc]

theorem receiveApp (located : Located s) (conserved : Conserved s) (protocol : Protocol s)
    {source target : Fin n} {rest : List (Msg n)} (idle : (s.proc target).recv = .idle)
    (isSent : app ∈ s.history.sent) (head : s.chan source target = .app app :: rest) :
    Located (s.recvMsg source target rest (.app app)) := by
  have unreceived := located.queued source target app (head ▸ List.mem_cons_self)
  have kept : ∀ {other flush}, s.Due other flush →
      (s.recvMsg source target rest (.app app)).Due other flush := by
    rintro other flush ⟨received, found, isDue⟩
    have different : other ≠ app := by
      rintro rfl
      rw [unreceived] at found
      cases found
    exact ⟨received, by simpa [State.recvMsg, History.receive, different] using found, isDue⟩
  have now : (s.recvMsg source target rest (.app app)).Due app
      (s.results.length + (s.hasReported target).toNat) :=
    ⟨(s.results.length, s.hasReported target), by simp [State.recvMsg, History.receive], rfl⟩
  have old : ∀ i j message, message ∈ s.chan.setQueue source target rest i j →
      message ∈ s.chan i j :=
    fun i j message => Channels.mem_of_mem_setQueue_tail head
  have processes : ∀ j, (s.recvMsg source target rest (.app app)).proc j =
      if j = target then
        { s.proc target with nMsgsRecvd := .message app :: (s.proc target).nMsgsRecvd }
      else s.proc j := by
    intro j
    by_cases here : j = target <;> simp [State.recvMsg, State.setProc, here]
  refine ⟨?_, ?_, ?_, ?_, ?_, ?_, ?_, ?_, ?_⟩
  · intro other received
    by_cases same : other = app
    · exact same ▸ isSent
    · exact located.sent other (by simpa [State.recvMsg, History.receive, same] using received)
  · intro i j other membership
    have different : other ≠ app := by
      rintro rfl
      exact conserved.notMem head i j membership
    simpa [State.recvMsg, History.receive, different] using
      located.queued i j other (old i j _ membership)
  · intro i j different
    have before := located.stamped i j different
    change Stamped stamp (s.history.marks j i) (s.chan.setQueue source target rest i j)
    by_cases same : i = source ∧ j = target
    · obtain ⟨rfl, rfl⟩ := same
      rw [Channels.setQueue_same]
      rw [head] at before
      exact before.tail (rfl : stamp (.app app) = some app.epoch)
    · rwa [Channels.setQueue_other _ _ same]
  · intro j other isClient membership
    rw [processes] at membership
    split at membership
    · rename_i here
      subst here
      rcases List.mem_cons.mp membership with new | before
      · cases new
        have isDue : s.results.length + (s.hasReported j).toNat = s.history.reported j := by
          have client := protocol.client j isClient
          have lower := client.returned_le
          have upper := client.reported_le 0 isClient.symm
          have marks := client.marks_le 0 isClient.symm
          have started := client.started_le
          by_cases late : s.results.length < s.history.reported j
          · simp only [State.hasReported, isClient, ne_eq, not_false_eq_true, late, and_self,
              decide_true, Bool.toNat_true]
            omega
          · simp only [State.hasReported, late, and_false, decide_false, Bool.toNat_false]
            omega
        rw [isDue] at now
        exact now
      · exact kept (located.client j other isClient before)
    · exact kept (located.client j other isClient membership)
  · intro j nMsgs other recv inside
    rw [processes] at recv
    split at recv
    · rename_i here
      simp [idle] at recv
    · exact kept (located.sending j nMsgs other recv inside)
  · intro j nMsgs recv
    rw [processes] at recv ⊢
    split at recv
    · simp [idle] at recv
    · rename_i elsewhere
      rw [if_neg elsewhere]
      exact located.emptied j nMsgs recv
  · intro j nMsgs other membership inside
    exact kept (located.pong j nMsgs other (old j 0 _ membership) inside)
  · intro other membership
    rw [processes] at membership
    split at membership
    · rename_i here
      subst here
      rcases List.mem_cons.mp membership with new | before
      · cases new
        have isDue : (s.hasReported 0).toNat = 0 := by simp [State.hasReported]
        rw [isDue, Nat.add_zero] at now
        exact now
      · exact kept (located.host other before)
    · exact kept (located.host other membership)
  · exact fun k nMsgs other found inside => kept (located.results k nMsgs other found inside)

theorem setProc (located : Located s) {pid : Fin n} {process : Process n}
    (counted : ∀ app, .message app ∈ process.nMsgsRecvd →
      .message app ∈ (s.proc pid).nMsgsRecvd)
    (sending : ∀ nMsgs, process.recv = .send nMsgs → process.nMsgsRecvd = [] ∧
      pid ≠ 0 ∧ ∀ app, .message app ∈ nMsgs → .message app ∈ (s.proc pid).nMsgsRecvd) :
    Located (s.setProc pid process) := by
  refine located.keep pid rfl rfl rfl ?_ (fun _ _ _ => id) located.stamped ?_ ?_ located.pong
  · exact fun q different => ⟨by simp [State.setProc, different], rfl⟩
  · intro app membership
    simp only [State.setProc, Function.update_self] at membership
    exact located.counted pid app (counted app membership)
  · intro nMsgs recv
    simp only [State.setProc, Function.update_self] at recv ⊢
    obtain ⟨empty, isClient, inside⟩ := sending nMsgs recv
    exact ⟨empty, fun app membership => located.client pid app isClient (inside app membership)⟩

theorem resumeBcast (located : Located s) {pid : Fin n} {process : Process n}
    (sameCount : process.nMsgsRecvd = (s.proc pid).nMsgsRecvd)
    (notSending : ∀ nMsgs, process.recv ≠ .send nMsgs) :
    Located ({ s with
        chan := s.chan.post pid ((others pid).filter (· ≠ 0)) (.pong [])
        history := s.history.ping pid }.setProc pid process) := by
  have queues := post_eq ((nodup_others pid).filter (· ≠ 0)) s.chan pid (.pong [])
  refine located.keep pid rfl rfl rfl ?_ ?_ ?_ ?_ ?_ ?_
  · exact fun q different => ⟨by simp [State.setProc, different], rfl⟩
  · intro i j app membership
    rcases Channels.mem_post.mp membership with old | ⟨-, -, impossible⟩
    · exact old
    · cases impossible
  · intro i j different
    have before := located.stamped i j different
    change Stamped stamp (s.history.marks j i) (s.chan.post pid _ _ i j)
    rw [queues]
    split
    · exact before.append fun value impossible => by cases impossible
    · exact before
  · intro app membership
    simp only [State.setProc, Function.update_self, sameCount] at membership
    exact located.counted pid app membership
  · intro nMsgs recv
    simp only [State.setProc, Function.update_self] at recv
    exact absurd recv (notSending nMsgs)
  · intro j nMsgs app membership inside
    rcases Channels.mem_post.mp membership with old | ⟨-, -, same⟩
    · exact located.pong j nMsgs app old inside
    · cases same
      cases inside

theorem resumeSend (located : Located s) (protocol : Protocol s) {pid : Fin n} (isClient : pid ≠ 0)
    {nMsgs : List (Count n)} (sending : (s.proc pid).recv = .send nMsgs) :
    Located { s.setProc pid { s.proc pid with recv := .idle } with
      chan := s.chan.send pid [(0, .pong nMsgs)]
      history := s.history.report pid } := by
  have isReturned : s.history.reported pid = s.results.length := by
    have client := protocol.client pid isClient
    obtain ⟨-, late, -⟩ := client.reporting (.inr (.inr ⟨nMsgs, sending⟩))
    have lower := client.returned_le
    have upper := client.started_le
    omega
  have empty := located.emptied pid nMsgs sending
  refine located.keep pid rfl rfl rfl ?_ ?_ ?_ ?_ ?_ ?_
  · intro q different
    simp [State.setProc, History.report, different]
  · intro i j app membership
    rcases Channels.mem_send.mp membership with old | ⟨-, impossible⟩
    · exact old
    · simp at impossible
  · intro i j different
    have before := located.stamped i j different
    change Stamped stamp (s.history.marks j i) (s.chan.send pid _ i j)
    rw [send_singleton]
    split
    · exact before.append fun value impossible => by cases impossible
    · exact before
  · intro app membership
    simp [State.setProc, empty] at membership
  · intro other recv
    simp [State.setProc] at recv
  · intro j other app membership inside
    rcases Channels.mem_send.mp membership with old | ⟨-, new⟩
    · exact located.pong j other app old inside
    · obtain ⟨-, same⟩ := Prod.mk.inj (List.mem_singleton.mp new)
      cases same
      rw [← isReturned]
      exact located.sending pid nMsgs app sending inside

theorem resume (located : Located s) (protocol : Protocol s) {pid : Fin n} {pending : Bool}
    {next : State n} (resumed : s.resume pid pending = some next) : Located next := by
  have pendingCounted : ∀ app, .message app ∈ ((s.proc pid).countPending pending).nMsgsRecvd →
      .message app ∈ (s.proc pid).nMsgsRecvd := by
    intro app membership
    unfold Process.countPending at membership
    cases pending <;> simpa using membership
  have isClient : (s.proc pid).recv ≠ .idle → (s.proc pid).recv ≠ .push → pid ≠ 0 := by
    rintro notIdle notPush rfl
    rcases protocol.host with recv | recv
    · exact notIdle recv
    · exact notPush recv
  cases recv : (s.proc pid).recv with
  | idle => simp [State.resume, recv] at resumed
  | ping =>
      simp only [State.resume, recv, Option.some.injEq] at resumed
      subst resumed
      exact located.setProc pendingCounted fun nMsgs impossible => by cases impossible
  | bcast =>
      simp only [State.resume, recv] at resumed
      split at resumed
      · cases resumed
        exact located.resumeBcast rfl (by simp)
      · cases resumed
        exact located.resumeBcast rfl (by simp)
  | pong =>
      simp only [State.resume, recv, Option.some.injEq] at resumed
      subst resumed
      refine located.setProc (fun _ => id) fun nMsgs impossible => ?_
      dsimp only at impossible
      split at impossible <;> cases impossible
  | report =>
      simp only [State.resume, recv, Option.some.injEq] at resumed
      subst resumed
      exact located.setProc pendingCounted fun nMsgs impossible => by cases impossible
  | exchange =>
      simp only [State.resume, recv, Option.some.injEq] at resumed
      subst resumed
      refine located.setProc (fun app impossible => by cases impossible) fun nMsgs same => ?_
      cases same
      exact ⟨rfl, isClient (by simp [recv]) (by simp [recv]), fun _ => id⟩
  | send nMsgs =>
      simp only [State.resume, recv, Option.some.injEq] at resumed
      subst resumed
      exact located.resumeSend protocol (isClient (by simp [recv]) (by simp [recv])) recv
  | push =>
      simp only [State.resume, recv, Option.some.injEq] at resumed
      subst resumed
      have changed : Located (s.setProc pid { s.proc pid with recv := .idle }) :=
        located.setProc (fun _ => id) fun nMsgs impossible => by cases impossible
      exact { changed with }

theorem send (located : Located s) (conserved : Conserved s) (protocol : Protocol s)
    {source target : Fin n} (different : source ≠ target) :
    let app : App n := ⟨s.history.sent.length, source, target, s.history.pinged source⟩
    Located { s with
      chan := s.chan.send source [(target, .app app)]
      history := { s.history with sent := app :: s.history.sent } } := by
  intro app
  have fresh : s.history.received app = none := by
    by_contra received
    have bound := conserved.fresh app (located.sent app received)
    exact lt_irrefl _ bound
  have late : s.history.marks target source + markers stamp (s.chan source target) ≤
      s.history.pinged source := by
    rw [protocol.lines.marked source target different]
    unfold State.sentTo
    split
    · rename_i host
      rw [host]
    · rename_i isClient
      split
      · exact (protocol.client source isClient).reported_le_pinged
      · exact le_rfl
  have old : ∀ i j message, message ∈ s.chan.send source [(target, .app app)] i j →
      message ∈ s.chan i j ∨ message = .app app := by
    intro i j message membership
    rcases Channels.mem_send.mp membership with old | ⟨-, new⟩
    · exact .inl old
    · exact .inr (Prod.mk.inj (List.mem_singleton.mp new)).2
  refine { located with sent := ?_, queued := ?_, stamped := ?_, pong := ?_ }
  · exact fun other received => List.mem_cons_of_mem _ (located.sent other received)
  · intro i j other membership
    rcases old i j _ membership with before | new
    · exact located.queued i j other before
    · cases new
      exact fresh
  · intro i j apart
    change Stamped stamp (s.history.marks j i) (s.chan.send source _ i j)
    have before := located.stamped i j apart
    rw [send_singleton]
    split
    · rename_i here
      obtain ⟨rfl, rfl⟩ := here
      refine before.append fun value isStamp => ?_
      cases isStamp
      exact late
    · exact before
  · intro j nMsgs other membership inside
    rcases old j 0 _ membership with before | impossible
    · exact located.pong j nMsgs other before inside
    · cases impossible

theorem flush (located : Located s) :
    Located { s with
      chan := s.chan.post 0 (others 0) .ping
      main := .sync 0
      history := s.history.ping 0 } := by
  refine { located with queued := ?_, stamped := ?_, pong := ?_ }
  · intro i j app membership
    rcases Channels.mem_post.mp membership with old | ⟨-, -, impossible⟩
    · exact located.queued i j app old
    · cases impossible
  · intro i j different
    have before := located.stamped i j different
    change Stamped stamp (s.history.marks j i) (s.chan.post 0 _ _ i j)
    rw [post_eq (nodup_others 0)]
    split
    · exact before.append fun value impossible => by cases impossible
    · exact before
  · intro j nMsgs app membership inside
    rcases Channels.mem_post.mp membership with old | ⟨-, -, impossible⟩
    · exact located.pong j nMsgs app old inside
    · cases impossible

theorem exchange (located : Located s) (protocol : Protocol s) {popped : Nat}
    (syncing : s.main = .sync popped) (all : ¬ popped < n - 1) :
    Located { s.setProc 0 { s.proc 0 with nMsgsRecvd := [] } with
      main := .outside
      results := s.results ++ [(s.proc 0).nMsgsRecvd] } := by
  obtain ⟨reported, -, idle⟩ := protocol.all_reported syncing all
  have noPong : ∀ j nMsgs, .pong nMsgs ∉ s.chan j 0 := by
    intro j nMsgs membership
    have isClient := (protocol.lines.pong j 0 nMsgs membership).1
    have marked := protocol.lines.marked j 0 isClient
    simp only [State.sentTo, if_neg isClient, if_true, reported j isClient] at marked
    have positive : 0 < markers stamp (s.chan j 0) :=
      List.countP_pos_iff.mpr ⟨_, membership, rfl⟩
    omega
  refine { located with
    client := ?_, sending := ?_, emptied := ?_, pong := ?_, host := ?_, results := ?_ }
  · intro j app isClient membership
    simp only [State.setProc, Function.update_of_ne isClient] at membership
    exact located.client j app isClient membership
  · intro j nMsgs app recv inside
    by_cases host : j = 0
    · simp [State.setProc, host, idle] at recv
    · simp only [State.setProc, Function.update_of_ne host] at recv
      exact located.sending j nMsgs app recv inside
  · intro j nMsgs recv
    by_cases host : j = 0
    · simp [State.setProc, host, idle] at recv
    · simp only [State.setProc, Function.update_of_ne host] at recv ⊢
      exact located.emptied j nMsgs recv
  · exact fun j nMsgs app membership => absurd membership (noPong j nMsgs)
  · intro app membership
    simp [State.setProc] at membership
  · intro k nMsgs app found inside
    rw [List.getElem?_append] at found
    split at found
    · exact located.results k nMsgs app found inside
    · rename_i last
      obtain ⟨isLast, rfl⟩ : k = s.results.length ∧ (s.proc 0).nMsgsRecvd = nMsgs := by
        rw [List.getElem?_singleton] at found
        split at found
        · exact ⟨by omega, Option.some.inj found⟩
        · cases found
      rw [isLast]
      exact located.host app inside

theorem step (located : Located s) (conserved : Conserved s) (protocol : Protocol s)
    {action : Action n} {next : State n} (stepped : step s action = some next) :
    Located next := by
  cases action with
  | send source target =>
      simp only [CnC.Flush.step, Option.ite_none_left_eq_some, Option.some.injEq] at stepped
      obtain ⟨different, rfl⟩ := stepped
      exact located.send conserved protocol different
  | receive source target =>
      simp only [CnC.Flush.step, Option.ite_none_right_eq_some] at stepped
      obtain ⟨idle, received⟩ := stepped
      split at received
      · cases received
      · rename_i message rest head
        cases received
        cases message with
        | app app =>
            exact located.receiveApp conserved protocol idle
              (conserved.sent_of_mem (head ▸ List.mem_cons_self)) head
        | ping => exact located.receivePing head
        | pong nMsgs => exact located.receivePong head
  | resume pid pending => exact located.resume protocol stepped
  | flush =>
      simp only [CnC.Flush.step] at stepped
      split at stepped
      · cases stepped
        exact located.flush
      · cases stepped
  | pop =>
      simp only [CnC.Flush.step] at stepped
      split at stepped
      · cases stepped
      · simp only [Option.ite_none_right_eq_some, Option.some.injEq] at stepped
        obtain ⟨-, rfl⟩ := stepped
        exact { located with }
  | exchange =>
      simp only [CnC.Flush.step] at stepped
      split at stepped
      · cases stepped
      · rename_i syncing
        simp only [Option.ite_none_left_eq_some, Option.some.injEq] at stepped
        obtain ⟨all, rfl⟩ := stepped
        exact located.exchange protocol syncing all

end Located

theorem located_start : Located (start n) where
  sent _ received := absurd rfl received
  queued _ _ _ membership := by cases membership
  stamped _ _ _ := trivial
  client _ _ _ membership := by cases membership
  sending _ _ _ recv := by cases recv
  emptied _ _ recv := by cases recv
  pong _ _ _ membership := by cases membership
  host _ membership := by cases membership
  results k _ _ found := by simp [start] at found

/-- What holds in every state which can be reached. -/
structure Accounted (s : State n) : Prop where
  protocol : Protocol s
  conserved : Conserved s
  located : Located s

theorem accounted_of_reached {allowed : State n → Action n → Prop}
    (reached : Reached (system n) allowed s) : Accounted s := by
  refine Reached.invariant Accounted ?_ ?_ reached
  · rintro _ rfl
    exact ⟨protocol_start, conserved_start, located_start⟩
  · rintro _ _ _ _ ⟨protocol, conserved, located⟩ _ stepped
    exact ⟨protocol.step stepped, conserved.step protocol stepped,
      located.step conserved protocol stepped⟩

end Host

end CnC.Flush
