import CnC.Library.Network
import CnC.Library.Transition

/-!
# Waiting for a distributed graph

The host waits for the quiescence of a distributed graph in rounds.  In each
round all processes wait for their own steps, on a PING of the scheduler, and
clients report with a PONG.  Then the host flushes the channels: every client
sends a PONG to every other one, and when it has received theirs, it sends the
host the number of messages it has received.  If no process received other
messages than PINGs and PONGs of the scheduler, the host leaves the loop.

A process has a thread in `wait_loop`, one receiver thread, one sender thread,
and threads which execute steps.  The receiver counts an application message
before it handles it, and other threads run in between.
-/

namespace CnC.Wait

open Network Transition

variable {n : Nat}

/-- Application messages, the PING and PONG of the scheduler, and those of the
distributor.  Clients send each other a PONG without a number. -/
inductive Msg where
  | app
  | schedPing
  | schedPong
  | distPing
  | distPong (nMsgs : Nat)
  deriving DecidableEq

/-- The receiver thread: it is between two messages, in the handler of an
application message, or in the handler of the distributor's PING or PONG, with
the last answer of `has_pending_messages`. -/
inductive Recv where
  | idle
  | app
  | ping (pending : Bool)
  | test
  | pong (pending : Bool)
  deriving DecidableEq

/-- The thread in `wait_loop`: where it stands, and how many PONGs it has
popped. -/
inductive Loop where
  | outside
  | initWait
  | waitAll
  | pending
  | finiWait (popped : Nat)
  | flush
  | sync (popped : Nat)
  | exchange
  | left
  deriving DecidableEq

/-- The steps of a process are those scheduled or executing.  An item of the
send queue is one message with its receivers. -/
structure Process (n : Nat) where
  steps : Nat
  nMsgsRecvd : Nat
  flushCount : Int
  barrier : Nat
  sync : Nat
  sendQueue : List (List (Fin n × Msg))
  recv : Recv
  loop : Loop

/-- What has happened in the current round: the clients which have handled the
scheduler's PING, sent its PONG, whose PONG the host has handled, which have sent
the distributor's PONGs to other clients and to the host, and whose PING or PONG
of the distributor each process has handled.  `apps` are the application
messages counted since the counter was last reset, `report` the number last
sent to the host, and `stale` tells that the host is handling a message which it
counted before it last reset its counter.  No step reads it. -/
structure History (n : Nat) where
  called : Finset (Fin n)
  answered : Finset (Fin n)
  ponged : Finset (Fin n)
  pinged : Finset (Fin n)
  reported : Finset (Fin n)
  marked : Fin n → Finset (Fin n)
  apps : Fin n → Nat
  report : Fin n → Nat
  stale : Bool

structure State (n : Nat) where
  proc : Fin n → Process n
  wire : Channels (Fin n) Msg
  history : History n

/-- `has_pending_messages`. -/
def Process.hasPendingMessages (process : Process n) : Bool :=
  !process.sendQueue.isEmpty

def Process.push (process : Process n) (item : List (Fin n × Msg)) : Process n :=
  { process with sendQueue := process.sendQueue ++ [item] }

def State.setProc (s : State n) (pid : Fin n) (process : Process n) : State n :=
  { s with proc := Function.update s.proc pid process }

def broadcast (self : Fin n) (message : Msg) : List (Fin n × Msg) :=
  (others self).map fun receiver => (receiver, message)

/-- Steps and handlers of application messages schedule steps and send
messages. -/
def Process.Active (process : Process n) : Prop :=
  0 < process.steps ∨ process.recv = .app

instance (process : Process n) : Decidable process.Active :=
  inferInstanceAs (Decidable (_ ∨ _))

section Host

variable [NeZero n]

def broadcastClients (self : Fin n) (message : Msg) : List (Fin n × Msg) :=
  ((others self).filter (· ≠ 0)).map fun receiver => (receiver, message)

def History.count (history : History n) (pid : Fin n) : History n :=
  { history with apps := Function.update history.apps pid (history.apps pid + 1) }

def History.mark (history : History n) (source target : Fin n) : History n :=
  { history with
    marked := Function.update history.marked target (insert source (history.marked target)) }

/-- The receiver takes a message from the wire.  It counts the messages of
contexts, to which the scheduler's PING and PONG belong. -/
def State.recvMsg (s : State n) (source target : Fin n) (rest : List Msg) : Msg → State n :=
  let process := s.proc target
  let taken := { s with wire := s.wire.setQueue source target rest }
  fun
  | .app =>
      { taken.setProc target
          { process with nMsgsRecvd := process.nMsgsRecvd + 1, recv := .app } with
        history := s.history.count target }
  | .schedPing =>
      { taken.setProc target
          { process with nMsgsRecvd := process.nMsgsRecvd + 1, loop := .initWait } with
        history := { s.history with called := insert target s.history.called } }
  | .schedPong =>
      { taken.setProc target
          { process with
            nMsgsRecvd := process.nMsgsRecvd + 1
            barrier := process.barrier + 1 } with
        history := { s.history with ponged := insert source s.history.ponged } }
  | .distPing =>
      if n = 2 then
        { taken.setProc target { process with flushCount := 0, recv := .test } with
          history := { s.history.mark source target with
            pinged := insert target s.history.pinged } }
      else
        { taken.setProc target { process with recv := .ping process.hasPendingMessages } with
          history := s.history.mark source target }
  | .distPong nMsgs =>
      if target ≠ 0 then
        { taken.setProc target
            { process with
              flushCount := process.flushCount - 1
              recv := if process.flushCount - 1 = 0 then .test else .idle } with
          history := s.history.mark source target }
      else
        { taken.setProc target
            { process with
              nMsgsRecvd := process.nMsgsRecvd + nMsgs
              sync := process.sync + 1 } with
          history := s.history.mark source target }

def State.resume (s : State n) (pid : Fin n) : Option (State n) :=
  let process := s.proc pid
  match process.recv with
  | .ping pending =>
      let counted := { process with nMsgsRecvd := process.nMsgsRecvd + pending.toNat }
      let last := process.flushCount = 2 - (n : Int)
      some { s.setProc pid
          { counted.push (broadcastClients pid (.distPong 0)) with
            flushCount := if last then 0 else process.flushCount + (n - 2)
            recv := if last then .test else .idle } with
        history := { s.history with pinged := insert pid s.history.pinged } }
  | .test => some (s.setProc pid { process with recv := .pong process.hasPendingMessages })
  | .pong pending =>
      let nMsgs := process.nMsgsRecvd + pending.toNat
      some { s.setProc pid
          { process.push [(0, .distPong nMsgs)] with nMsgsRecvd := 0, recv := .idle } with
        history := { s.history with
          reported := insert pid s.history.reported
          report := Function.update s.history.report pid nMsgs
          apps := Function.update s.history.apps pid 0 } }
  | _ => none

/-- The handler of an application message returns. -/
def State.handled (s : State n) (pid : Fin n) : Option (State n) :=
  if (s.proc pid).recv = .app then
    some { s.setProc pid { s.proc pid with recv := .idle } with
      history := { s.history with stale := s.history.stale && decide (pid ≠ 0) } }
  else none

/-- A new round begins. -/
def History.reset (history : History n) (stale : Bool) : History n where
  called := ∅
  answered := ∅
  ponged := ∅
  pinged := ∅
  reported := ∅
  marked _ := ∅
  apps := Function.update history.apps 0 0
  report := history.report
  stale := stale

/-- The next step of `wait_loop`, of `fini_wait` or of `flush`. -/
def State.waitLoop (s : State n) (pid : Fin n) : Option (State n) :=
  let process := s.proc pid
  match process.loop with
  | .outside => none
  | .initWait =>
      some (s.setProc pid
        (if pid = 0 then { process.push (broadcast pid .schedPing) with loop := .waitAll }
        else { process with loop := .waitAll }))
  | .waitAll =>
      if process.steps = 0 then some (s.setProc pid { process with loop := .pending }) else none
  | .pending =>
      some (s.setProc pid
        { process with loop := if process.hasPendingMessages then .waitAll else .finiWait 0 })
  | .finiWait popped =>
      if pid ≠ 0 then
        some { s.setProc pid { process.push [(0, .schedPong)] with loop := .outside } with
          history := { s.history with answered := insert pid s.history.answered } }
      else if popped < n - 1 then
        if 0 < process.barrier then
          some (s.setProc pid
            { process with barrier := process.barrier - 1, loop := .finiWait (popped + 1) })
        else none
      else some (s.setProc pid { process with loop := .flush })
  | .flush =>
      some (s.setProc pid { process.push (broadcast pid .distPing) with loop := .sync 0 })
  | .sync popped =>
      if popped < n - 1 then
        if 0 < process.sync then
          some (s.setProc pid
            { process with sync := process.sync - 1, loop := .sync (popped + 1) })
        else none
      else some (s.setProc pid { process with loop := .exchange })
  | .exchange =>
      if process.nMsgsRecvd > 2 * n - 2 then
        some { s.setProc pid { process with nMsgsRecvd := 0, loop := .initWait } with
          history := s.history.reset (decide (process.recv = .app)) }
      else some (s.setProc pid { process with nMsgsRecvd := 0, loop := .left })
  | .left => none

inductive Action (n : Nat) where
  | schedule (pid : Fin n)
  | finish (pid : Fin n)
  | send (pid : Fin n) (receivers : List (Fin n))
  | transmit (pid : Fin n)
  | receive (source target : Fin n)
  | handled (pid : Fin n)
  | resume (pid : Fin n)
  | waitLoop (pid : Fin n)
  deriving DecidableEq

def step (s : State n) : Action n → Option (State n)
  | .schedule pid =>
      if (s.proc pid).Active then
        some (s.setProc pid { s.proc pid with steps := (s.proc pid).steps + 1 })
      else none
  | .finish pid =>
      if 0 < (s.proc pid).steps then
        some (s.setProc pid { s.proc pid with steps := (s.proc pid).steps - 1 })
      else none
  | .send pid receivers =>
      if (s.proc pid).Active then
        some (s.setProc pid ((s.proc pid).push
          ((receivers.filter (· ≠ pid)).map fun receiver => (receiver, .app))))
      else none
  | .transmit pid =>
      match (s.proc pid).sendQueue with
      | [] => none
      | item :: rest =>
          some { s.setProc pid { s.proc pid with sendQueue := rest } with
            wire := s.wire.send pid item }
  | .receive source target =>
      if (s.proc target).recv = .idle then
        match s.wire source target with
        | [] => none
        | message :: rest => some (s.recvMsg source target rest message)
      else none
  | .handled pid => s.handled pid
  | .resume pid => s.resume pid
  | .waitLoop pid => s.waitLoop pid

/-- The host enters `wait_loop`.  Any steps are scheduled and any application
messages are on their way, but no PINGs and PONGs. -/
structure Initial (s : State n) : Prop where
  host : (s.proc 0).loop = .initWait
  clients : ∀ pid, pid ≠ 0 → (s.proc pid).loop = .outside
  idle : ∀ pid, (s.proc pid).recv = .idle
  counters : ∀ pid, (s.proc pid).flushCount = 0 ∧ (s.proc pid).barrier = 0 ∧ (s.proc pid).sync = 0
  queued : ∀ pid, ∀ item ∈ (s.proc pid).sendQueue, ∀ pair ∈ item, pair.1 ≠ pid ∧ pair.2 = .app
  inFlight : ∀ i j, ∀ message ∈ s.wire i j, i ≠ j ∧ message = .app
  history : s.history =
    { called := ∅, answered := ∅, ponged := ∅, pinged := ∅, reported := ∅,
      marked := fun _ => ∅, apps := fun _ => 0, report := s.history.report, stale := false }

def system (n : Nat) [NeZero n] : System (State n) (Action n) where
  Initial := Initial
  step := step

/-- Nothing is going on: no step is scheduled or executing, and no application
message is handled, in flight or in a send queue. -/
structure Quiet (s : State n) : Prop where
  steps : ∀ pid, (s.proc pid).steps = 0
  recv : ∀ pid, (s.proc pid).recv ≠ .app
  sendQueue : ∀ pid, ∀ item ∈ (s.proc pid).sendQueue, ∀ pair ∈ item, pair.2 ≠ .app
  wire : ∀ i j, .app ∉ s.wire i j

end Host

end CnC.Wait
