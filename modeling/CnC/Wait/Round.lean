import CnC.Wait.Loop

/-!
# The rounds of the wait loop

`Control` is what remains of a state when application messages and steps are
left out: the PINGs and PONGs on their way, where the threads stand, and what
has happened in the current round.  `Control.Step` are the steps which change
it.  `Protocol` says which messages are on their way in each phase of a round;
in particular, a client which has sent its number to the host has handled a
PING or PONG of every other process.
-/

namespace CnC.Wait

open Network Transition

variable {n : Nat}

/-- `main` is the thread of the host in `wait_loop`, and `loop` those of the
clients. -/
@[ext]
structure Control (n : Nat) where
  chan : Channels (Fin n) Msg
  main : Loop
  loop : Fin n → Loop
  recv : Fin n → Recv
  flushCount : Fin n → Int
  barrier : Nat
  sync : Nat
  called : Finset (Fin n)
  answered : Finset (Fin n)
  ponged : Finset (Fin n)
  pinged : Finset (Fin n)
  reported : Finset (Fin n)
  marked : Fin n → Finset (Fin n)
  report : Fin n → Nat

variable [NeZero n]

/-- The host waits for the numbers of the clients, or has all of them. -/
def Loop.Flushing : Loop → Prop
  | .sync _ => True
  | .exchange => True
  | _ => False

instance (loop : Loop) : Decidable loop.Flushing := by
  unfold Loop.Flushing
  split <;> infer_instance

def Loop.poppedBarrier (n : Nat) : Loop → Nat
  | .finiWait popped => popped
  | .flush => n - 1
  | .sync _ => n - 1
  | .exchange => n - 1
  | _ => 0

def Loop.poppedSync (n : Nat) : Loop → Nat
  | .sync popped => popped
  | .exchange => n - 1
  | _ => 0

/-- The host waits for its own steps. -/
def Loop.Waiting : Loop → Prop
  | .waitAll => True
  | .pending => True
  | .finiWait popped => popped = 0
  | _ => False

/-- A client is in `wait_loop`. -/
def Loop.Inside : Loop → Prop
  | .initWait => True
  | .waitAll => True
  | .pending => True
  | .finiWait _ => True
  | _ => False

/-- The steps which change what is on its way or where a thread stands. -/
inductive Control.Step (c : Control n) : Control n → Prop
  | start : c.main = .initWait → Step c
      { c with chan := c.chan.send 0 (broadcast 0 .schedPing), main := .waitAll }
  | wait {loop} : c.main.Waiting → loop.Waiting → Step c { c with main := loop }
  | popBarrier {popped} : c.main = .finiWait popped → popped < n - 1 → 0 < c.barrier → Step c
      { c with barrier := c.barrier - 1, main := .finiWait (popped + 1) }
  | gathered {popped} : c.main = .finiWait popped → n - 1 ≤ popped → Step c
      { c with main := .flush }
  | flush : c.main = .flush → Step c
      { c with chan := c.chan.send 0 (broadcast 0 .distPing), main := .sync 0 }
  | popSync {popped} : c.main = .sync popped → popped < n - 1 → 0 < c.sync → Step c
      { c with sync := c.sync - 1, main := .sync (popped + 1) }
  | flushed {popped} : c.main = .sync popped → n - 1 ≤ popped → Step c
      { c with main := .exchange }
  | again : c.main = .exchange → Step c
      { c with
        main := .initWait
        called := ∅, answered := ∅, ponged := ∅, pinged := ∅, reported := ∅
        marked := fun _ => ∅ }
  | waitClient {pid loop} : pid ≠ 0 → (c.loop pid).Inside → loop.Inside → Step c
      { c with loop := Function.update c.loop pid loop }
  | answer {pid} : pid ≠ 0 → (c.loop pid).Inside → Step c
      { c with
        chan := c.chan.send pid [(0, .schedPong)]
        loop := Function.update c.loop pid .outside
        answered := insert pid c.answered }
  | schedPing {pid rest} : pid ≠ 0 → c.chan 0 pid = .schedPing :: rest → Step c
      { c with
        chan := c.chan.setQueue 0 pid rest
        loop := Function.update c.loop pid .initWait
        called := insert pid c.called }
  | schedPong {pid rest} : pid ≠ 0 → c.chan pid 0 = .schedPong :: rest → Step c
      { c with
        chan := c.chan.setQueue pid 0 rest
        barrier := c.barrier + 1
        ponged := insert pid c.ponged }
  | distPing {pid rest pending} : pid ≠ 0 → n ≠ 2 → c.chan 0 pid = .distPing :: rest →
      c.recv pid = .idle → Step c
      { c with
        chan := c.chan.setQueue 0 pid rest
        recv := Function.update c.recv pid (.ping pending)
        marked := Function.update c.marked pid (insert 0 (c.marked pid)) }
  | distPingTwo {pid rest} : pid ≠ 0 → n = 2 → c.chan 0 pid = .distPing :: rest →
      c.recv pid = .idle → Step c
      { c with
        chan := c.chan.setQueue 0 pid rest
        flushCount := Function.update c.flushCount pid 0
        recv := Function.update c.recv pid .test
        marked := Function.update c.marked pid (insert 0 (c.marked pid))
        pinged := insert pid c.pinged }
  | distPong {source target number rest} : source ≠ 0 → target ≠ 0 → source ≠ target →
      c.chan source target = .distPong number :: rest → c.recv target = .idle → Step c
      { c with
        chan := c.chan.setQueue source target rest
        flushCount := Function.update c.flushCount target (c.flushCount target - 1)
        recv := Function.update c.recv target
          (if c.flushCount target - 1 = 0 then .test else .idle)
        marked := Function.update c.marked target (insert source (c.marked target)) }
  | number {pid number rest} : pid ≠ 0 → c.chan pid 0 = .distPong number :: rest → Step c
      { c with
        chan := c.chan.setQueue pid 0 rest
        sync := c.sync + 1
        marked := Function.update c.marked 0 (insert pid (c.marked 0)) }
  | pongs {pid pending} : c.recv pid = .ping pending → Step c
      { c with
        chan := c.chan.send pid (broadcastClients pid (.distPong 0))
        flushCount := Function.update c.flushCount pid (c.flushCount pid + (n - 2))
        recv := Function.update c.recv pid (if c.flushCount pid = 2 - (n : Int) then .test else .idle)
        pinged := insert pid c.pinged }
  | test {pid pending} : c.recv pid = .test → Step c
      { c with recv := Function.update c.recv pid (.pong pending) }
  | pong {pid pending number} : c.recv pid = .pong pending → Step c
      { c with
        chan := c.chan.send pid [(0, .distPong number)]
        recv := Function.update c.recv pid .idle
        reported := insert pid c.reported
        report := Function.update c.report pid number }

/-- What is on its way, and what has happened, in each phase of a round. -/
structure Protocol (c : Control n) : Prop where
  self : ∀ i, c.chan i i = []
  fromHost : ∀ j, j ≠ 0 → c.chan 0 j =
    (if c.main ≠ .initWait ∧ j ∉ c.called then [.schedPing] else []) ++
      (if c.main.Flushing ∧ 0 ∉ c.marked j then [.distPing] else [])
  toHost : ∀ j, j ≠ 0 → c.chan j 0 =
    (if j ∈ c.answered ∧ j ∉ c.ponged then [.schedPong] else []) ++
      (if j ∈ c.reported ∧ j ∉ c.marked 0 then [.distPong (c.report j)] else [])
  between : ∀ i j, i ≠ 0 → j ≠ 0 → i ≠ j → c.chan i j =
    if i ∈ c.pinged ∧ i ∉ c.marked j then [.distPong 0] else []
  host : c.main ≠ .outside ∧ 0 ∉ c.called ∧ c.recv 0 = .idle
  clients : ∀ j, j ≠ 0 → if j ∈ c.called ∧ j ∉ c.answered then (c.loop j).Inside
    else c.loop j = .outside
  answered : c.answered ⊆ c.called
  ponged : c.ponged ⊆ c.answered
  pinged : c.pinged ⊆ c.ponged
  reported : c.reported ⊆ c.pinged
  called : c.main = .initWait → c.called = ∅
  gathered : c.main = .flush ∨ c.main.Flushing → ∀ j, j ≠ 0 → j ∈ c.ponged
  flushed : c.main = .exchange → ∀ j, j ≠ 0 → j ∈ c.marked 0
  barrier : c.barrier + c.main.poppedBarrier n = c.ponged.card
  sync : c.sync + c.main.poppedSync n = (c.marked 0).card
  unmarked : ∀ j, j ∉ c.marked j
  markedHost : ∀ j, 0 ∈ c.marked j → c.main.Flushing
  markedClient : ∀ i j, i ≠ 0 → i ∈ c.marked j → i ∈ c.pinged
  markedAtHost : ∀ i, i ∈ c.marked 0 → i ∈ c.reported
  marks : ∀ j, j ∈ c.pinged → 0 ∈ c.marked j
  complete : ∀ i j, j ∈ c.reported → i ≠ j → i ∈ c.marked j
  flushCount : ∀ j, j ≠ 0 → c.flushCount j =
    (if j ∈ c.pinged then (n : Int) - 2 else 0) - ((c.marked j).erase 0).card
  ping : ∀ j pending, c.recv j = .ping pending → 0 ∈ c.marked j ∧ j ∉ c.pinged
  pong : ∀ j, c.recv j = .test ∨ (∃ pending, c.recv j = .pong pending) →
    j ∈ c.pinged ∧ j ∉ c.reported ∧ c.flushCount j = 0

theorem send_broadcast (chan : Channels (Fin n) Msg) (message : Msg) (i j : Fin n) :
    chan.send 0 (broadcast 0 message) i j =
      if i = 0 ∧ j ≠ 0 then chan i j ++ [message] else chan i j := by
  unfold Channels.send broadcast
  rw [filter_map_of_nodup (nodup_others 0)]
  by_cases same : i = 0 <;> by_cases client : j = 0 <;> simp [same, client]

theorem send_broadcastClients (chan : Channels (Fin n) Msg) (pid : Fin n) (message : Msg)
    (i j : Fin n) : chan.send pid (broadcastClients pid message) i j =
      if i = pid ∧ j ≠ pid ∧ j ≠ 0 then chan i j ++ [message] else chan i j := by
  unfold Channels.send broadcastClients
  rw [filter_map_of_nodup ((nodup_others pid).filter _)]
  by_cases same : i = pid <;> by_cases other : j = pid <;> by_cases client : j = 0 <;>
    simp [same, other, client]

theorem send_host (chan : Channels (Fin n) Msg) (pid : Fin n) (message : Msg) (i j : Fin n) :
    chan.send pid [(0, message)] i j =
      if i = pid ∧ j = 0 then chan i j ++ [message] else chan i j := by
  unfold Channels.send
  by_cases same : i = pid <;> by_cases host : j = 0 <;> simp [same, host, eq_comm]

namespace Protocol

variable {c : Control n}

theorem ne_zero (protocol : Protocol c) {j : Fin n} (membership : j ∈ c.called) : j ≠ 0 := by
  rintro rfl
  exact protocol.host.2.1 membership

theorem not_flushing (protocol : Protocol c) (early : ¬ c.main.Flushing) :
    c.pinged = ∅ ∧ c.reported = ∅ ∧ ∀ j, c.marked j = ∅ := by
  have unmarked : ∀ j, 0 ∉ c.marked j := fun j marked => early (protocol.markedHost j marked)
  have unpinged : c.pinged = ∅ := by
    apply Finset.eq_empty_of_forall_notMem
    exact fun j pinged => unmarked j (protocol.marks j pinged)
  refine ⟨unpinged, ?_, fun j => ?_⟩
  · rw [← Finset.subset_empty, ← unpinged]
    exact protocol.reported
  · apply Finset.eq_empty_of_forall_notMem
    intro i marked
    by_cases host : i = 0
    · exact unmarked j (host ▸ marked)
    · have pinged := protocol.markedClient i j host marked
      rw [unpinged] at pinged
      exact absurd pinged (Finset.notMem_empty i)

theorem start (protocol : Protocol c) (main : c.main = .initWait) :
    Protocol { c with chan := c.chan.send 0 (broadcast 0 .schedPing), main := .waitAll } := by
  have uncalled := protocol.called main
  have early : ¬ c.main.Flushing := by rw [main]; exact id
  obtain ⟨unpinged, unreported, unmarked⟩ := protocol.not_flushing early
  refine { protocol with
    self := fun i => ?_
    fromHost := fun j client => ?_
    toHost := fun j client => ?_
    between := fun i j client client' different => ?_
    host := ⟨by simp, protocol.host.2⟩
    called := by simp
    gathered := by simp [Loop.Flushing]
    flushed := by simp
    barrier := by simpa [main, Loop.poppedBarrier] using protocol.barrier
    sync := by simpa [main, Loop.poppedSync] using protocol.sync
    markedHost := by simp [unmarked] }
  · have old := protocol.self i
    simp [send_broadcast, old]
  · have old := protocol.fromHost j client
    simp [send_broadcast, client, old, main, uncalled, Loop.Flushing]
  · have old := protocol.toHost j client
    simp [send_broadcast, client, old]
  · have old := protocol.between i j client client' different
    simp [send_broadcast, client, old]

theorem wait {loop : Loop} (protocol : Protocol c) (before : c.main.Waiting)
    (after : loop.Waiting) : Protocol { c with main := loop } := by
  have waiting : ∀ loop : Loop, loop.Waiting → loop ≠ .outside ∧ loop ≠ .initWait ∧
      loop ≠ .flush ∧ loop ≠ .exchange ∧ ¬ loop.Flushing ∧ loop.poppedBarrier n = 0 ∧
      loop.poppedSync n = 0 := by
    intro loop
    cases loop <;> simp [Loop.Waiting, Loop.Flushing, Loop.poppedBarrier, Loop.poppedSync]
  obtain ⟨-, notInit, -, -, early, barrierBefore, syncBefore⟩ := waiting c.main before
  obtain ⟨inside, notInit', notFlush, notExchange, early', barrierAfter, syncAfter⟩ :=
    waiting loop after
  obtain ⟨unpinged, unreported, unmarked⟩ := protocol.not_flushing early
  exact { protocol with
    fromHost := fun j client => by
      simpa [notInit, notInit', early, early'] using protocol.fromHost j client
    host := ⟨inside, protocol.host.2⟩
    called := fun main => absurd main notInit'
    gathered := fun phase => absurd phase (by simp [notFlush, early'])
    flushed := fun main => absurd main notExchange
    barrier := by simpa [barrierBefore, barrierAfter] using protocol.barrier
    sync := by simpa [syncBefore, syncAfter] using protocol.sync
    markedHost := by simp [unmarked] }

theorem popBarrier {popped : Nat} (protocol : Protocol c) (main : c.main = .finiWait popped)
    (available : 0 < c.barrier) :
    Protocol { c with barrier := c.barrier - 1, main := .finiWait (popped + 1) } := by
  have early : ¬ c.main.Flushing := by rw [main]; exact id
  obtain ⟨unpinged, unreported, unmarked⟩ := protocol.not_flushing early
  exact { protocol with
    fromHost := fun j client => by
      simpa [main, Loop.Flushing] using protocol.fromHost j client
    host := ⟨by simp, protocol.host.2⟩
    called := by simp
    gathered := by simp [Loop.Flushing]
    flushed := by simp
    barrier := by
      have tokens := protocol.barrier
      simp only [main, Loop.poppedBarrier] at tokens ⊢
      omega
    sync := by simpa [main, Loop.poppedSync] using protocol.sync
    markedHost := by simp [unmarked] }

theorem card_clients : (Finset.univ.erase (0 : Fin n)).card = n - 1 := by
  rw [Finset.card_erase_of_mem (Finset.mem_univ _), Finset.card_univ, Fintype.card_fin]

theorem all_clients {clients : Finset (Fin n)} (noHost : 0 ∉ clients)
    (all : n - 1 ≤ clients.card) (j : Fin n) (client : j ≠ 0) : j ∈ clients := by
  have subset : clients ⊆ Finset.univ.erase 0 := fun i membership => by
    refine Finset.mem_erase.mpr ⟨?_, Finset.mem_univ i⟩
    rintro rfl
    exact noHost membership
  rw [Finset.eq_of_subset_of_card_le subset (card_clients.le.trans all)]
  exact Finset.mem_erase.mpr ⟨client, Finset.mem_univ j⟩

theorem gather {popped : Nat} (protocol : Protocol c) (main : c.main = .finiWait popped)
    (all : n - 1 ≤ popped) : Protocol { c with main := .flush } := by
  have early : ¬ c.main.Flushing := by rw [main]; exact id
  obtain ⟨unpinged, unreported, unmarked⟩ := protocol.not_flushing early
  have tokens := protocol.barrier
  simp only [main, Loop.poppedBarrier] at tokens
  have noHost : 0 ∉ c.ponged :=
    fun ponged => protocol.host.2.1 (protocol.answered (protocol.ponged ponged))
  have few : c.ponged.card ≤ n - 1 := by
    rw [← card_clients]
    apply Finset.card_le_card
    intro j ponged
    exact Finset.mem_erase.mpr
      ⟨protocol.ne_zero (protocol.answered (protocol.ponged ponged)), Finset.mem_univ j⟩
  have enough : n - 1 ≤ c.ponged.card := by omega
  exact { protocol with
    fromHost := fun j client => by
      simpa [main, Loop.Flushing] using protocol.fromHost j client
    host := ⟨by simp, protocol.host.2⟩
    called := by simp
    gathered := fun _ => all_clients noHost enough
    flushed := by simp
    barrier := by
      simp only [Loop.poppedBarrier]
      omega
    sync := by simpa [main, Loop.poppedSync] using protocol.sync
    markedHost := by simp [unmarked] }

theorem flush (protocol : Protocol c) (main : c.main = .flush) :
    Protocol { c with chan := c.chan.send 0 (broadcast 0 .distPing), main := .sync 0 } := by
  have early : ¬ c.main.Flushing := by rw [main]; exact id
  obtain ⟨unpinged, unreported, unmarked⟩ := protocol.not_flushing early
  refine { protocol with
    self := fun i => ?_
    fromHost := fun j client => ?_
    toHost := fun j client => ?_
    between := fun i j client client' different => ?_
    host := ⟨by simp, protocol.host.2⟩
    called := by simp
    gathered := fun _ => protocol.gathered (.inl main)
    flushed := by simp
    barrier := by simpa [main, Loop.poppedBarrier] using protocol.barrier
    sync := by simpa [main, Loop.poppedSync] using protocol.sync
    markedHost := by simp [unmarked] }
  · have old := protocol.self i
    simp [send_broadcast, old]
  · have old := protocol.fromHost j client
    simp [send_broadcast, client, old, main, unmarked, Loop.Flushing]
  · have old := protocol.toHost j client
    simp [send_broadcast, client, old]
  · have old := protocol.between i j client client' different
    simp [send_broadcast, client, old]

theorem popSync {popped : Nat} (protocol : Protocol c) (main : c.main = .sync popped)
    (available : 0 < c.sync) :
    Protocol { c with sync := c.sync - 1, main := .sync (popped + 1) } := by
  have flushing : c.main.Flushing := by rw [main]; trivial
  exact { protocol with
    fromHost := fun j client => by
      simpa [main, Loop.Flushing] using protocol.fromHost j client
    host := ⟨by simp, protocol.host.2⟩
    called := by simp
    gathered := fun _ => protocol.gathered (.inr flushing)
    flushed := by simp
    barrier := by simpa [main, Loop.poppedBarrier] using protocol.barrier
    sync := by
      have tokens := protocol.sync
      simp only [main, Loop.poppedSync] at tokens ⊢
      omega
    markedHost := fun _ _ => trivial }

theorem finish {popped : Nat} (protocol : Protocol c) (main : c.main = .sync popped)
    (all : n - 1 ≤ popped) : Protocol { c with main := .exchange } := by
  have flushing : c.main.Flushing := by rw [main]; trivial
  have tokens := protocol.sync
  simp only [main, Loop.poppedSync] at tokens
  have few : (c.marked 0).card ≤ n - 1 := by
    rw [← card_clients]
    apply Finset.card_le_card
    intro j marked
    refine Finset.mem_erase.mpr ⟨?_, Finset.mem_univ j⟩
    rintro rfl
    exact protocol.unmarked 0 marked
  have enough : n - 1 ≤ (c.marked 0).card := by omega
  exact { protocol with
    fromHost := fun j client => by
      simpa [main, Loop.Flushing] using protocol.fromHost j client
    host := ⟨by simp, protocol.host.2⟩
    called := by simp
    gathered := fun _ => protocol.gathered (.inr flushing)
    flushed := fun _ => all_clients (protocol.unmarked 0) enough
    barrier := by simpa [main, Loop.poppedBarrier] using protocol.barrier
    sync := by
      simp only [Loop.poppedSync]
      omega
    markedHost := fun _ _ => trivial }

theorem card_others {j : Fin n} (client : j ≠ 0) :
    (((Finset.univ.erase (0 : Fin n)).erase j).card : Int) = n - 2 := by
  have membership : j ∈ Finset.univ.erase (0 : Fin n) :=
    Finset.mem_erase.mpr ⟨client, Finset.mem_univ j⟩
  have positive : 0 < n - 1 := by
    rw [← card_clients (n := n)]
    exact Finset.card_pos.mpr ⟨j, membership⟩
  rw [Finset.card_erase_of_mem membership, card_clients]
  omega

/-- A client has handled a PONG of every other client if it has handled as many
as there are. -/
theorem card_marked (protocol : Protocol c) {j : Fin n} (client : j ≠ 0) :
    (∀ i, i ≠ 0 → i ≠ j → i ∈ c.marked j) ↔ ((c.marked j).erase 0).card = (n : Int) - 2 := by
  have subset : (c.marked j).erase 0 ⊆ (Finset.univ.erase 0).erase j := by
    intro i membership
    obtain ⟨notHost, marked⟩ := Finset.mem_erase.mp membership
    refine Finset.mem_erase.mpr ⟨?_, Finset.mem_erase.mpr ⟨notHost, Finset.mem_univ i⟩⟩
    rintro rfl
    exact protocol.unmarked i marked
  have card := card_others client
  constructor
  · intro all
    have equal : (c.marked j).erase 0 = (Finset.univ.erase 0).erase j := by
      apply Finset.Subset.antisymm subset
      intro i membership
      obtain ⟨different, erased⟩ := Finset.mem_erase.mp membership
      have notHost := (Finset.mem_erase.mp erased).1
      exact Finset.mem_erase.mpr ⟨notHost, all i notHost different⟩
    rw [equal, card]
  · intro all i notHost different
    have equal := Finset.eq_of_subset_of_card_le subset (by omega)
    have membership : i ∈ (c.marked j).erase 0 := by
      rw [equal]
      exact Finset.mem_erase.mpr ⟨different, Finset.mem_erase.mpr ⟨notHost, Finset.mem_univ i⟩⟩
    exact (Finset.mem_erase.mp membership).2

theorem drained (protocol : Protocol c) (main : c.main = .exchange) :
    (∀ i j, c.chan i j = []) ∧ (∀ j, j ≠ 0 → j ∈ c.reported) ∧
      ∀ i j, i ≠ j → i ∈ c.marked j := by
  have marked0 := protocol.flushed main
  have reported : ∀ j, j ≠ 0 → j ∈ c.reported :=
    fun j client => protocol.markedAtHost j (marked0 j client)
  have marked : ∀ i j, i ≠ j → i ∈ c.marked j := by
    intro i j different
    by_cases host : j = 0
    · subst host
      exact marked0 i different
    · exact protocol.complete i j (reported j host) different
  refine ⟨fun i j => ?_, reported, marked⟩
  by_cases same : i = j
  · exact same ▸ protocol.self i
  have ponged : ∀ j, j ≠ 0 → j ∈ c.ponged := protocol.gathered (.inr (by rw [main]; trivial))
  by_cases source : i = 0
  · subst source
    have client : j ≠ 0 := fun host => same host.symm
    have called := protocol.answered (protocol.ponged (ponged j client))
    rw [protocol.fromHost j client]
    simp [called, marked 0 j same]
  by_cases target : j = 0
  · subst target
    rw [protocol.toHost i source]
    simp [ponged i source, marked i 0 same]
  · rw [protocol.between i j source target same]
    simp [marked i j same]

theorem again (protocol : Protocol c) (main : c.main = .exchange) :
    Protocol { c with
      main := .initWait, called := ∅, answered := ∅, ponged := ∅, pinged := ∅, reported := ∅
      marked := fun _ => ∅ } := by
  obtain ⟨empty, reported, marked⟩ := protocol.drained main
  have pinged : ∀ j, j ≠ 0 → j ∈ c.pinged := fun j client => protocol.reported (reported j client)
  have answered : ∀ j, j ≠ 0 → j ∈ c.answered :=
    fun j client => protocol.ponged (protocol.pinged (pinged j client))
  have noPing : ∀ j pending, c.recv j ≠ .ping pending := by
    intro j pending recv
    by_cases client : j = 0
    · simp [client, protocol.host.2.2] at recv
    · exact (protocol.ping j pending recv).2 (pinged j client)
  have noPong : ∀ j, ¬ (c.recv j = .test ∨ ∃ pending, c.recv j = .pong pending) := by
    intro j recv
    by_cases client : j = 0
    · simp [client, protocol.host.2.2] at recv
    · exact (protocol.pong j recv).2.1 (reported j client)
  have tokens := protocol.barrier
  have syncs := protocol.sync
  have allPonged : c.ponged.card = n - 1 := by
    have equal : c.ponged = Finset.univ.erase 0 := by
      ext j
      simp only [Finset.mem_erase, Finset.mem_univ, and_true]
      constructor
      · exact fun ponged => protocol.ne_zero (protocol.answered (protocol.ponged ponged))
      · exact fun client => protocol.pinged (pinged j client)
    rw [equal, card_clients]
  have allMarked : (c.marked 0).card = n - 1 := by
    have equal : c.marked 0 = Finset.univ.erase 0 := by
      ext j
      simp only [Finset.mem_erase, Finset.mem_univ, and_true]
      constructor
      · rintro markedHost rfl
        exact protocol.unmarked 0 markedHost
      · exact fun client => marked j 0 client
    rw [equal, card_clients]
  simp only [main, Loop.poppedBarrier, Loop.poppedSync] at tokens syncs
  exact {
    self := protocol.self
    fromHost := fun j _ => by simp [empty, Loop.Flushing]
    toHost := fun j _ => by simp [empty]
    between := fun i j _ _ _ => by simp [empty]
    host := ⟨by simp, by simp, protocol.host.2.2⟩
    clients := fun j client => by
      have outside := protocol.clients j client
      simpa [answered j client] using outside
    answered := Finset.Subset.refl _
    ponged := Finset.Subset.refl _
    pinged := Finset.Subset.refl _
    reported := Finset.Subset.refl _
    called := fun _ => rfl
    gathered := by simp [Loop.Flushing]
    flushed := by simp
    barrier := by simp [Loop.poppedBarrier]; omega
    sync := by simp [Loop.poppedSync]; omega
    unmarked := by simp
    markedHost := by simp
    markedClient := by simp
    markedAtHost := by simp
    marks := by simp
    complete := by simp
    flushCount := fun j client => by
      have count := protocol.flushCount j client
      have complete := (protocol.card_marked client).mp fun i _ different => marked i j different
      simpa [pinged j client, complete] using count
    ping := fun j pending recv => absurd recv (noPing j pending)
    pong := fun j recv => absurd recv (noPong j) }

theorem waitClient {pid : Fin n} {loop : Loop} (protocol : Protocol c) (client : pid ≠ 0)
    (before : (c.loop pid).Inside) (after : loop.Inside) :
    Protocol { c with loop := Function.update c.loop pid loop } := by
  refine { protocol with clients := fun j client => ?_ }
  have old := protocol.clients j client
  by_cases same : j = pid
  · subst same
    split at old
    · rename_i waiting
      simpa [waiting] using after
    · rw [old] at before
      exact absurd before id
  · simpa [same] using old

theorem inside_iff (protocol : Protocol c) {j : Fin n} (client : j ≠ 0) :
    (c.loop j).Inside ↔ j ∈ c.called ∧ j ∉ c.answered := by
  have old := protocol.clients j client
  split at old
  · rename_i waiting
    exact ⟨fun _ => waiting, fun _ => old⟩
  · rename_i notWaiting
    rw [old]
    exact ⟨fun inside => absurd inside id, fun waiting => absurd waiting notWaiting⟩

theorem answer {pid : Fin n} (protocol : Protocol c) (client : pid ≠ 0)
    (inside : (c.loop pid).Inside) :
    Protocol { c with
      chan := c.chan.send pid [(0, .schedPong)]
      loop := Function.update c.loop pid .outside
      answered := insert pid c.answered } := by
  obtain ⟨called, unanswered⟩ := (protocol.inside_iff client).mp inside
  have unponged : pid ∉ c.ponged := fun ponged => unanswered (protocol.ponged ponged)
  have unreported : pid ∉ c.reported :=
    fun reported => unponged (protocol.pinged (protocol.reported reported))
  refine { protocol with
    self := fun i => ?_
    fromHost := fun j client' => ?_
    toHost := fun j client' => ?_
    between := fun i j client client' different => ?_
    clients := fun j client' => ?_
    answered := Finset.insert_subset called protocol.answered
    ponged := protocol.ponged.trans (Finset.subset_insert _ _) }
  · have notHost : ¬ (i = pid ∧ i = 0) := by
      rintro ⟨rfl, host⟩
      exact client host
    have old := protocol.self i
    simp [send_host, notHost, old]
  · have old := protocol.fromHost j client'
    simpa [send_host, client'] using old
  · have old := protocol.toHost j client'
    by_cases same : j = pid
    · subst same
      simp [send_host, old, unanswered, unponged, unreported]
    · simp [send_host, same, old]
  · have old := protocol.between i j client client' different
    simpa [send_host, client'] using old
  · have old := protocol.clients j client'
    by_cases same : j = pid
    · subst same
      simp
    · simpa [same] using old

theorem head_cases {first second : Prop} [Decidable first] [Decidable second]
    {message one two : Msg} {rest : List Msg}
    (content : message :: rest = (if first then [one] else []) ++ if second then [two] else []) :
    (first ∧ message = one ∧ rest = if second then [two] else []) ∨
      (¬ first ∧ second ∧ message = two ∧ rest = []) := by
  by_cases isFirst : first <;> by_cases isSecond : second <;> simp_all

theorem schedPing {pid : Fin n} {rest : List Msg} (protocol : Protocol c) (client : pid ≠ 0)
    (head : c.chan 0 pid = .schedPing :: rest) :
    Protocol { c with
      chan := c.chan.setQueue 0 pid rest
      loop := Function.update c.loop pid .initWait
      called := insert pid c.called } := by
  have content := protocol.fromHost pid client
  rw [head] at content
  obtain ⟨⟨started, uncalled⟩, -, remaining⟩ | ⟨-, -, impossible, -⟩ := head_cases content
  · have unanswered : pid ∉ c.answered := fun answered => uncalled (protocol.answered answered)
    refine { protocol with
      self := fun i => ?_
      fromHost := fun j client' => ?_
      toHost := fun j client' => ?_
      between := fun i j client client' different => ?_
      host := ⟨protocol.host.1, ?_, protocol.host.2.2⟩
      clients := fun j client' => ?_
      answered := protocol.answered.trans (Finset.subset_insert _ _)
      called := fun main => absurd main started }
    · have notHere : ¬ (i = 0 ∧ i = pid) := by
        rintro ⟨rfl, rfl⟩
        exact client rfl
      simp [Channels.setQueue, notHere, protocol.self i]
    · have old := protocol.fromHost j client'
      by_cases same : j = pid
      · subst same
        simp [Channels.setQueue, remaining]
      · simp [Channels.setQueue, same, old]
    · simpa [Channels.setQueue, client'] using protocol.toHost j client'
    · simpa [Channels.setQueue, client] using protocol.between i j client client' different
    · simp [client.symm, protocol.host.2.1]
    · have old := protocol.clients j client'
      by_cases same : j = pid
      · subst same
        simp [unanswered, Loop.Inside]
      · simpa [same] using old
  · cases impossible

theorem schedPong {pid : Fin n} {rest : List Msg} (protocol : Protocol c) (client : pid ≠ 0)
    (head : c.chan pid 0 = .schedPong :: rest) :
    Protocol { c with
      chan := c.chan.setQueue pid 0 rest
      barrier := c.barrier + 1
      ponged := insert pid c.ponged } := by
  have content := protocol.toHost pid client
  rw [head] at content
  obtain ⟨⟨answered, unponged⟩, -, remaining⟩ | ⟨-, -, impossible, -⟩ := head_cases content
  · have tokens := protocol.barrier
    refine { protocol with
      self := fun i => ?_
      fromHost := fun j client' => ?_
      toHost := fun j client' => ?_
      between := fun i j client client' different => ?_
      ponged := Finset.insert_subset answered protocol.ponged
      pinged := protocol.pinged.trans (Finset.subset_insert _ _)
      gathered := fun phase j client' =>
        Finset.mem_insert_of_mem (protocol.gathered phase j client')
      barrier := ?_ }
    · have notHere : ¬ (i = pid ∧ i = 0) := by
        rintro ⟨rfl, rfl⟩
        exact client rfl
      simp [Channels.setQueue, notHere, protocol.self i]
    · simpa [Channels.setQueue, client'] using protocol.fromHost j client'
    · have old := protocol.toHost j client'
      by_cases same : j = pid
      · subst same
        simp [Channels.setQueue, remaining]
      · simp [Channels.setQueue, same, old]
    · simpa [Channels.setQueue, client'] using protocol.between i j client client' different
    · simp only [Finset.card_insert_of_notMem unponged]
      omega
  · cases impossible

theorem head_distPing {pid : Fin n} {rest : List Msg} (protocol : Protocol c) (client : pid ≠ 0)
    (head : c.chan 0 pid = .distPing :: rest) :
    c.main.Flushing ∧ 0 ∉ c.marked pid ∧ pid ∉ c.pinged ∧ pid ∈ c.ponged ∧ rest = [] := by
  have content := protocol.fromHost pid client
  rw [head] at content
  obtain ⟨-, impossible, -⟩ | ⟨-, ⟨flushing, unmarked⟩, -, rfl⟩ := head_cases content
  · cases impossible
  · exact ⟨flushing, unmarked, fun pinged => unmarked (protocol.marks pid pinged),
      protocol.gathered (.inr flushing) pid client, rfl⟩

omit [NeZero n] in
theorem mem_mark {marked : Fin n → Finset (Fin n)} {source target i j : Fin n} :
    i ∈ Function.update marked target (insert source (marked target)) j ↔
      (j = target ∧ i = source) ∨ i ∈ marked j := by
  by_cases same : j = target
  · subst same
    simp
  · simp [same]

theorem distPing {pid : Fin n} {rest : List Msg} {pending : Bool} (protocol : Protocol c)
    (client : pid ≠ 0) (head : c.chan 0 pid = .distPing :: rest) :
    Protocol { c with
      chan := c.chan.setQueue 0 pid rest
      recv := Function.update c.recv pid (.ping pending)
      marked := Function.update c.marked pid (insert 0 (c.marked pid)) } := by
  obtain ⟨flushing, unmarked, unpinged, ponged, rfl⟩ := protocol.head_distPing client head
  refine { protocol with
    self := fun i => ?_
    fromHost := fun j client' => ?_
    toHost := fun j client' => ?_
    between := fun i j client client' different => ?_
    host := ⟨protocol.host.1, protocol.host.2.1, ?_⟩
    flushed := fun main j client' => ?_
    sync := ?_
    unmarked := fun j => ?_
    markedHost := fun _ _ => flushing
    markedClient := fun i j client' => ?_
    markedAtHost := fun i => ?_
    marks := fun j pinged => ?_
    complete := fun i j reported different => ?_
    flushCount := fun j client' => ?_
    ping := fun j pending recv => ?_
    pong := fun j recv => ?_ }
  · have notHere : ¬ (i = 0 ∧ i = pid) := by
      rintro ⟨rfl, rfl⟩
      exact client rfl
    simp [Channels.setQueue, notHere, protocol.self i]
  · have old := protocol.fromHost j client'
    by_cases same : j = pid
    · subst same
      have called := protocol.answered (protocol.ponged ponged)
      simp [Channels.setQueue, called]
    · simp [Channels.setQueue, same, old]
  · simpa [Channels.setQueue, client', client.symm] using protocol.toHost j client'
  · simpa [Channels.setQueue, client, mem_mark] using protocol.between i j client client' different
  · simpa [client.symm] using protocol.host.2.2
  · simpa [client.symm] using protocol.flushed main j client'
  · simpa [client.symm] using protocol.sync
  · simp only [mem_mark]
    rintro (⟨rfl, rfl⟩ | old)
    · exact client rfl
    · exact protocol.unmarked j old
  · simpa [mem_mark, client'] using protocol.markedClient i j client'
  · simpa [client.symm] using protocol.markedAtHost i
  · exact mem_mark.mpr (.inr (protocol.marks j pinged))
  · exact mem_mark.mpr (.inr (protocol.complete i j reported different))
  · have old := protocol.flushCount j client'
    by_cases same : j = pid
    · subst same
      simpa using old
    · simpa [same] using old
  · by_cases same : j = pid
    · subst same
      exact ⟨mem_mark.mpr (.inl ⟨rfl, rfl⟩), unpinged⟩
    · simp only [Function.update_of_ne same] at recv
      exact (protocol.ping j pending recv).imp_left fun old => mem_mark.mpr (.inr old)
  · by_cases same : j = pid
    · subst same
      simp at recv
    · simp only [Function.update_of_ne same] at recv
      exact protocol.pong j recv

theorem client_unique (two : n = 2) {i j : Fin n} (client : i ≠ 0) (client' : j ≠ 0) : i = j := by
  have positive : i.val ≠ 0 := fun zero => client (Fin.val_eq_zero_iff.mp zero)
  have positive' : j.val ≠ 0 := fun zero => client' (Fin.val_eq_zero_iff.mp zero)
  apply Fin.ext
  omega

theorem distPingTwo {pid : Fin n} {rest : List Msg} (protocol : Protocol c) (client : pid ≠ 0)
    (two : n = 2) (head : c.chan 0 pid = .distPing :: rest) :
    Protocol { c with
      chan := c.chan.setQueue 0 pid rest
      flushCount := Function.update c.flushCount pid 0
      recv := Function.update c.recv pid .test
      marked := Function.update c.marked pid (insert 0 (c.marked pid))
      pinged := insert pid c.pinged } := by
  obtain ⟨flushing, unmarked, unpinged, ponged, rfl⟩ := protocol.head_distPing client head
  have noMarks : (c.marked pid).erase 0 = ∅ := by
    apply Finset.eq_empty_of_forall_notMem
    intro i membership
    obtain ⟨client', marked⟩ := Finset.mem_erase.mp membership
    rw [client_unique two client' client] at marked
    exact protocol.unmarked pid marked
  refine { protocol with
    self := fun i => ?_
    fromHost := fun j client' => ?_
    toHost := fun j client' => ?_
    between := fun i j client client' different => absurd (client_unique two client client') different
    host := ⟨protocol.host.1, protocol.host.2.1, ?_⟩
    pinged := Finset.insert_subset ponged protocol.pinged
    reported := protocol.reported.trans (Finset.subset_insert _ _)
    flushed := fun main j client' => ?_
    sync := ?_
    unmarked := fun j => ?_
    markedHost := fun _ _ => flushing
    markedClient := fun i j client' marked => ?_
    markedAtHost := fun i => ?_
    marks := fun j pinged => ?_
    complete := fun i j reported different => ?_
    flushCount := fun j client' => ?_
    ping := fun j pending recv => ?_
    pong := fun j recv => ?_ }
  · have notHere : ¬ (i = 0 ∧ i = pid) := by
      rintro ⟨rfl, rfl⟩
      exact client rfl
    simp [Channels.setQueue, notHere, protocol.self i]
  · cases client_unique two client' client
    have called := protocol.answered (protocol.ponged ponged)
    simp [Channels.setQueue, called]
  · simpa [Channels.setQueue, client', client.symm] using protocol.toHost j client'
  · simpa [client.symm] using protocol.host.2.2
  · simpa [client.symm] using protocol.flushed main j client'
  · simpa [client.symm] using protocol.sync
  · simp only [mem_mark]
    rintro (⟨rfl, rfl⟩ | old)
    · exact client rfl
    · exact protocol.unmarked j old
  · rcases mem_mark.mp marked with ⟨-, host⟩ | old
    · exact absurd host client'
    · exact Finset.mem_insert_of_mem (protocol.markedClient i j client' old)
  · simpa [client.symm] using protocol.markedAtHost i
  · rcases Finset.mem_insert.mp pinged with rfl | old
    · exact mem_mark.mpr (.inl ⟨rfl, rfl⟩)
    · exact mem_mark.mpr (.inr (protocol.marks j old))
  · exact mem_mark.mpr (.inr (protocol.complete i j reported different))
  · cases client_unique two client' client
    simp [noMarks, two]
  · by_cases same : j = pid
    · subst same
      simp at recv
    · simp only [Function.update_of_ne same] at recv
      obtain ⟨marked, unpinged⟩ := protocol.ping j pending recv
      exact ⟨mem_mark.mpr (.inr marked), by simp [same, unpinged]⟩
  · by_cases same : j = pid
    · subst same
      exact ⟨Finset.mem_insert_self _ _, fun reported => unpinged (protocol.reported reported),
        by simp⟩
    · simp only [Function.update_of_ne same] at recv ⊢
      obtain ⟨pinged, unreported, count⟩ := protocol.pong j recv
      exact ⟨Finset.mem_insert_of_mem pinged, unreported, count⟩

theorem head_distPong {source target : Fin n} {number : Nat} {rest : List Msg}
    (protocol : Protocol c) (sourceClient : source ≠ 0) (targetClient : target ≠ 0)
    (different : source ≠ target) (head : c.chan source target = .distPong number :: rest) :
    source ∈ c.pinged ∧ source ∉ c.marked target ∧ target ∉ c.reported ∧ rest = [] := by
  have content := protocol.between source target sourceClient targetClient different
  rw [head] at content
  split at content
  · rename_i sent
    cases content
    exact ⟨sent.1, sent.2, fun reported => sent.2 (protocol.complete source target reported different),
      rfl⟩
  · cases content

theorem distPong {source target : Fin n} {number : Nat} {rest : List Msg} (protocol : Protocol c)
    (sourceClient : source ≠ 0) (targetClient : target ≠ 0) (different : source ≠ target)
    (head : c.chan source target = .distPong number :: rest) :
    Protocol { c with
      chan := c.chan.setQueue source target rest
      flushCount := Function.update c.flushCount target (c.flushCount target - 1)
      recv := Function.update c.recv target
        (if c.flushCount target - 1 = 0 then .test else .idle)
      marked := Function.update c.marked target (insert source (c.marked target)) } := by
  obtain ⟨pinged, unmarked, unreported, rfl⟩ :=
    protocol.head_distPong sourceClient targetClient different head
  have count := protocol.flushCount target targetClient
  refine { protocol with
    self := fun i => ?_
    fromHost := fun j client' => ?_
    toHost := fun j client' => ?_
    between := fun i j client client' different => ?_
    host := ⟨protocol.host.1, protocol.host.2.1, ?_⟩
    flushed := fun main j client' => ?_
    sync := ?_
    unmarked := fun j => ?_
    markedHost := fun j marked => ?_
    markedClient := fun i j client' marked => ?_
    markedAtHost := fun i => ?_
    marks := fun j pinged => ?_
    complete := fun i j reported different => ?_
    flushCount := fun j client' => ?_
    ping := fun j pending recv => ?_
    pong := fun j recv => ?_ }
  · have notHere : ¬ (i = source ∧ i = target) := by
      rintro ⟨rfl, rfl⟩
      exact different rfl
    simp [Channels.setQueue, notHere, protocol.self i]
  · simpa [Channels.setQueue, sourceClient.symm, mem_mark] using protocol.fromHost j client'
  · simpa [Channels.setQueue, targetClient.symm] using protocol.toHost j client'
  · have old := protocol.between i j client client' different
    by_cases here : i = source ∧ j = target
    · obtain ⟨rfl, rfl⟩ := here
      simp [Channels.setQueue]
    · have notMarked : ¬ (j = target ∧ i = source) := fun both => here both.symm
      simp [Channels.setQueue, here, old, mem_mark, notMarked]
  · simpa [targetClient.symm] using protocol.host.2.2
  · simpa [targetClient.symm] using protocol.flushed main j client'
  · simpa [targetClient.symm] using protocol.sync
  · simp only [mem_mark]
    rintro (⟨rfl, rfl⟩ | old)
    · exact different rfl
    · exact protocol.unmarked j old
  · rcases mem_mark.mp marked with ⟨-, host⟩ | old
    · exact absurd host.symm sourceClient
    · exact protocol.markedHost j old
  · rcases mem_mark.mp marked with ⟨-, rfl⟩ | old
    · exact pinged
    · exact protocol.markedClient i j client' old
  · simpa [targetClient.symm] using protocol.markedAtHost i
  · exact mem_mark.mpr (.inr (protocol.marks j pinged))
  · exact mem_mark.mpr (.inr (protocol.complete i j reported different))
  · by_cases same : j = target
    · subst same
      have grown : ((insert source (c.marked j)).erase 0).card =
          ((c.marked j).erase 0).card + 1 := by
        rw [Finset.erase_insert_of_ne sourceClient, Finset.card_insert_of_notMem]
        simp [unmarked]
      simp only [Function.update_self, grown]
      push_cast
      omega
    · simpa [same] using protocol.flushCount j client'
  · by_cases same : j = target
    · subst same
      simp only [Function.update_self] at recv
      split at recv <;> cases recv
    · simp only [Function.update_of_ne same] at recv
      exact (protocol.ping j pending recv).imp_left fun old => mem_mark.mpr (.inr old)
  · by_cases same : j = target
    · subst same
      simp only [Function.update_self] at recv ⊢
      split at recv
      · rename_i last
        refine ⟨?_, unreported, last⟩
        by_contra unpinged
        rw [if_neg unpinged] at count
        omega
      · simp at recv
    · simp only [Function.update_of_ne same] at recv ⊢
      exact protocol.pong j recv

theorem number {pid : Fin n} {number : Nat} {rest : List Msg} (protocol : Protocol c)
    (client : pid ≠ 0) (head : c.chan pid 0 = .distPong number :: rest) :
    Protocol { c with
      chan := c.chan.setQueue pid 0 rest
      sync := c.sync + 1
      marked := Function.update c.marked 0 (insert pid (c.marked 0)) } := by
  have content := protocol.toHost pid client
  rw [head] at content
  obtain ⟨-, impossible, -⟩ | ⟨-, ⟨reported, unmarked⟩, -, rfl⟩ := head_cases content
  · cases impossible
  have pinged := protocol.reported reported
  refine { protocol with
    self := fun i => ?_
    fromHost := fun j client' => ?_
    toHost := fun j client' => ?_
    between := fun i j client client' different => ?_
    flushed := fun main j client' => mem_mark.mpr (.inr (protocol.flushed main j client'))
    sync := ?_
    unmarked := fun j => ?_
    markedHost := fun j marked => ?_
    markedClient := fun i j client' marked => ?_
    markedAtHost := fun i marked => ?_
    marks := fun j pinged => mem_mark.mpr (.inr (protocol.marks j pinged))
    complete := fun i j reported different =>
      mem_mark.mpr (.inr (protocol.complete i j reported different))
    flushCount := fun j client' => ?_
    ping := fun j pending recv => ?_ }
  · have notHere : ¬ (i = pid ∧ i = 0) := by
      rintro ⟨rfl, rfl⟩
      exact client rfl
    simp [Channels.setQueue, notHere, protocol.self i]
  · simpa [Channels.setQueue, client', client.symm] using protocol.fromHost j client'
  · have old := protocol.toHost j client'
    by_cases same : j = pid
    · subst same
      have ponged := protocol.pinged pinged
      simp [Channels.setQueue, ponged]
    · simp [Channels.setQueue, same, old]
  · simpa [Channels.setQueue, client'] using protocol.between i j client client' different
  · have tokens := protocol.sync
    simp only [Function.update_self, Finset.card_insert_of_notMem unmarked]
    omega
  · simp only [mem_mark]
    rintro (⟨rfl, rfl⟩ | old)
    · exact client rfl
    · exact protocol.unmarked j old
  · rcases mem_mark.mp marked with ⟨-, host⟩ | old
    · exact absurd host.symm client
    · exact protocol.markedHost j old
  · rcases mem_mark.mp marked with ⟨-, rfl⟩ | old
    · exact pinged
    · exact protocol.markedClient i j client' old
  · rcases mem_mark.mp marked with ⟨-, rfl⟩ | old
    · exact reported
    · exact protocol.markedAtHost i old
  · simpa [client'] using protocol.flushCount j client'
  · exact (protocol.ping j pending recv).imp_left fun old => mem_mark.mpr (.inr old)

theorem pongs {pid : Fin n} {pending : Bool} (protocol : Protocol c)
    (handling : c.recv pid = .ping pending) :
    Protocol { c with
      chan := c.chan.send pid (broadcastClients pid (.distPong 0))
      flushCount := Function.update c.flushCount pid (c.flushCount pid + (n - 2))
      recv := Function.update c.recv pid (if c.flushCount pid = 2 - (n : Int) then .test else .idle)
      pinged := insert pid c.pinged } := by
  obtain ⟨marked, unpinged⟩ := protocol.ping pid pending handling
  have client : pid ≠ 0 := by
    rintro rfl
    simp [protocol.host.2.2] at handling
  have ponged := protocol.gathered (.inr (protocol.markedHost pid marked)) pid client
  have count := protocol.flushCount pid client
  rw [if_neg unpinged] at count
  refine { protocol with
    self := fun i => ?_
    fromHost := fun j client' => ?_
    toHost := fun j client' => ?_
    between := fun i j client client' different => ?_
    host := ⟨protocol.host.1, protocol.host.2.1, ?_⟩
    pinged := Finset.insert_subset ponged protocol.pinged
    reported := protocol.reported.trans (Finset.subset_insert _ _)
    markedClient := fun i j client' marked =>
      Finset.mem_insert_of_mem (protocol.markedClient i j client' marked)
    marks := fun j pinged => ?_
    flushCount := fun j client' => ?_
    ping := fun j pending recv => ?_
    pong := fun j recv => ?_ }
  · have notHere : ¬ (i = pid ∧ i ≠ pid ∧ i ≠ 0) := fun both => both.2.1 both.1
    simp only [send_broadcastClients, if_neg notHere, protocol.self i]
  · simpa [send_broadcastClients, client.symm] using protocol.fromHost j client'
  · simpa [send_broadcastClients] using protocol.toHost j client'
  · have old := protocol.between i j client client' different
    by_cases same : i = pid
    · subst same
      have notMarked : i ∉ c.marked j := fun marked => unpinged (protocol.markedClient i j client marked)
      simp [send_broadcastClients, old, unpinged, notMarked, client', Ne.symm different]
    · simp [send_broadcastClients, same, old]
  · simpa [client.symm] using protocol.host.2.2
  · rcases Finset.mem_insert.mp pinged with rfl | old
    · exact marked
    · exact protocol.marks j old
  · by_cases same : j = pid
    · subst same
      simp [count]
      ring
    · simpa [same] using protocol.flushCount j client'
  · by_cases same : j = pid
    · subst same
      simp only [Function.update_self] at recv
      split at recv <;> cases recv
    · simp only [Function.update_of_ne same] at recv
      obtain ⟨marked, unpinged⟩ := protocol.ping j pending recv
      exact ⟨marked, by simp [same, unpinged]⟩
  · by_cases same : j = pid
    · subst same
      simp only [Function.update_self] at recv ⊢
      split at recv
      · rename_i last
        refine ⟨Finset.mem_insert_self _ _, fun reported => unpinged (protocol.reported reported), ?_⟩
        rw [last]
        ring
      · simp at recv
    · simp only [Function.update_of_ne same] at recv ⊢
      obtain ⟨pinged, unreported, count⟩ := protocol.pong j recv
      exact ⟨Finset.mem_insert_of_mem pinged, unreported, count⟩

theorem test {pid : Fin n} {pending : Bool} (protocol : Protocol c)
    (handling : c.recv pid = .test) :
    Protocol { c with recv := Function.update c.recv pid (.pong pending) } := by
  have client : pid ≠ 0 := by
    rintro rfl
    simp [protocol.host.2.2] at handling
  refine { protocol with
    host := ⟨protocol.host.1, protocol.host.2.1, ?_⟩
    ping := fun j pending recv => ?_
    pong := fun j recv => ?_ }
  · simpa [client.symm] using protocol.host.2.2
  · by_cases same : j = pid
    · subst same
      simp at recv
    · simp only [Function.update_of_ne same] at recv
      exact protocol.ping j pending recv
  · by_cases same : j = pid
    · subst same
      exact protocol.pong j (.inl handling)
    · simp only [Function.update_of_ne same] at recv
      exact protocol.pong j recv

theorem report {pid : Fin n} {pending : Bool} {number : Nat} (protocol : Protocol c)
    (handling : c.recv pid = .pong pending) :
    Protocol { c with
      chan := c.chan.send pid [(0, .distPong number)]
      recv := Function.update c.recv pid .idle
      reported := insert pid c.reported
      report := Function.update c.report pid number } := by
  obtain ⟨pinged, unreported, noneLeft⟩ := protocol.pong pid (.inr ⟨pending, handling⟩)
  have client : pid ≠ 0 := by
    rintro rfl
    simp [protocol.host.2.2] at handling
  have unmarked : pid ∉ c.marked 0 := fun marked => unreported (protocol.markedAtHost pid marked)
  have ponged := protocol.pinged pinged
  have complete : ∀ i, i ≠ pid → i ∈ c.marked pid := by
    intro i different
    by_cases host : i = 0
    · exact host ▸ protocol.marks pid pinged
    · have count := protocol.flushCount pid client
      rw [noneLeft, if_pos pinged] at count
      exact (protocol.card_marked client).mpr (by omega) i host different
  refine { protocol with
    self := fun i => ?_
    fromHost := fun j client' => ?_
    toHost := fun j client' => ?_
    between := fun i j client client' different => ?_
    host := ⟨protocol.host.1, protocol.host.2.1, ?_⟩
    reported := Finset.insert_subset pinged protocol.reported
    markedAtHost := fun i marked => Finset.mem_insert_of_mem (protocol.markedAtHost i marked)
    complete := fun i j reported different => ?_
    ping := fun j pending recv => ?_
    pong := fun j recv => ?_ }
  · have notHost : ¬ (i = pid ∧ i = 0) := by
      rintro ⟨rfl, host⟩
      exact client host
    simp [send_host, notHost, protocol.self i]
  · simpa [send_host, client'] using protocol.fromHost j client'
  · have old := protocol.toHost j client'
    by_cases same : j = pid
    · subst same
      simp [send_host, old, unmarked, unreported, ponged]
    · simp [send_host, same, old]
  · simpa [send_host, client'] using protocol.between i j client client' different
  · simpa [client.symm] using protocol.host.2.2
  · rcases Finset.mem_insert.mp reported with rfl | old
    · exact complete i different
    · exact protocol.complete i j old different
  · by_cases same : j = pid
    · subst same
      simp at recv
    · simp only [Function.update_of_ne same] at recv
      exact protocol.ping j pending recv
  · by_cases same : j = pid
    · subst same
      simp at recv
    · simp only [Function.update_of_ne same] at recv
      obtain ⟨pinged, unreported, count⟩ := protocol.pong j recv
      exact ⟨pinged, by simp [same, unreported], count⟩

theorem step {next : Control n} (protocol : Protocol c) (stepped : c.Step next) :
    Protocol next := by
  cases stepped with
  | start main => exact protocol.start main
  | wait before after => exact protocol.wait before after
  | popBarrier main _ available => exact protocol.popBarrier main available
  | gathered main all => exact protocol.gather main all
  | flush main => exact protocol.flush main
  | popSync main _ available => exact protocol.popSync main available
  | flushed main all => exact protocol.finish main all
  | again main => exact protocol.again main
  | waitClient client before after => exact protocol.waitClient client before after
  | answer client inside => exact protocol.answer client inside
  | schedPing client head => exact protocol.schedPing client head
  | schedPong client head => exact protocol.schedPong client head
  | distPing client _ head _ => exact protocol.distPing client head
  | distPingTwo client two head _ => exact protocol.distPingTwo client two head
  | distPong source target different head _ => exact protocol.distPong source target different head
  | number client head => exact protocol.number client head
  | pongs handling => exact protocol.pongs handling
  | test handling => exact protocol.test handling
  | pong handling => exact protocol.report handling

end Protocol

end CnC.Wait
