import CnC.Library.Network
import CnC.Library.Transition

/-!
# Flushing the channels

`distributor::flush` is called on the host.  It sends a PING to all clients and
waits for a PONG of each.  A client which receives the PING sends a PONG to all
other clients, and when it has received theirs, it sends the host a PONG with the
number of messages it has received.  The PONGs of other clients may come before
the PING; one signed counter keeps track of both.

Every process has one receiver thread.  The other threads send application
messages at any time, also while the receiver handles a PING or PONG.
-/

namespace CnC.Flush

open Network Transition

variable {n : Nat}

/-- An application message, with the number of PINGs which its sender had handled
when it was sent; for the host it is the number of PINGs sent. -/
structure App (n : Nat) where
  id : Nat
  source : Fin n
  target : Fin n
  epoch : Nat
  deriving DecidableEq

inductive Count (n : Nat) where
  | message (app : App n)
  | pending
  deriving DecidableEq

inductive Msg (n : Nat) where
  | app (app : App n)
  | ping
  | pong (nMsgs : List (Count n))
  deriving DecidableEq

/-- The receiver thread stands between two messages or in `recv_msg`: on a client
before the test for pending messages and before the sending of PONGs (`ping`,
`bcast`), before it decrements `m_flushCount` (`pong`), and before the test, the
exchange and the sending of its number (`report`, `exchange`, `send`); on the host
before it pushes to `m_sync`. -/
inductive Recv (n : Nat) where
  | idle
  | ping
  | bcast
  | pong
  | report
  | exchange
  | send (nMsgs : List (Count n))
  | push
  deriving DecidableEq

/-- The counter `m_nMsgsRecvd` is given by what it has counted, its value is the
length of the list. -/
structure Process (n : Nat) where
  nMsgsRecvd : List (Count n)
  flushCount : Int
  recv : Recv n

/-- The thread of the host: outside of `flush`, or waiting for PONGs with the
number of those popped. -/
inductive Main where
  | outside
  | sync (popped : Nat)
  deriving DecidableEq

/-- What has happened: the PINGs which each client has handled (the host: sent),
the PINGs and PONGs which a process has received from each other one, the PONGs
which each client has sent to the host, the application messages sent, and for
every message received the number of flushes which had returned, and whether the
receiving process had reported since.  No step reads it, except for the identity of
new messages. -/
structure History (n : Nat) where
  pinged : Fin n → Nat
  marks : Fin n → Fin n → Nat
  reported : Fin n → Nat
  sent : List (App n)
  received : App n → Option (Nat × Bool)

/-- `results` are the values which `flush` has returned. -/
structure State (n : Nat) where
  proc : Fin n → Process n
  chan : Channels (Fin n) (Msg n)
  sync : Nat
  main : Main
  results : List (List (Count n))
  history : History n

def State.setProc (s : State n) (pid : Fin n) (process : Process n) : State n :=
  { s with proc := Function.update s.proc pid process }

/-- A test of `has_pending_messages`, with its answer. -/
def Process.countPending (process : Process n) (pending : Bool) : Process n :=
  { process with
    nMsgsRecvd := if pending then .pending :: process.nMsgsRecvd else process.nMsgsRecvd }

section Host

variable [NeZero n]

/-- The process has reported since the last flush returned. -/
def State.hasReported (s : State n) (pid : Fin n) : Bool :=
  decide (pid ≠ 0 ∧ s.results.length < s.history.reported pid)

def History.mark (history : History n) (source target : Fin n) : History n :=
  { history with
    marks := Function.update history.marks target
      (Function.update (history.marks target) source (history.marks target source + 1)) }

def History.ping (history : History n) (pid : Fin n) : History n :=
  { history with pinged := Function.update history.pinged pid (history.pinged pid + 1) }

def History.report (history : History n) (pid : Fin n) : History n :=
  { history with reported := Function.update history.reported pid (history.reported pid + 1) }

def History.receive (history : History n) (app : App n) (when_ : Nat × Bool) : History n :=
  { history with received := Function.update history.received app (some when_) }

def State.recvMsg (s : State n) (source target : Fin n) (rest : List (Msg n)) : Msg n → State n :=
  let process := s.proc target
  let taken := { s with chan := s.chan.setQueue source target rest }
  fun
  | .app app =>
      { taken.setProc target
          { process with nMsgsRecvd := .message app :: process.nMsgsRecvd } with
        history := s.history.receive app (s.results.length, s.hasReported target) }
  | .ping =>
      if n = 2 then
        { taken.setProc target { process with flushCount := 1, recv := .pong } with
          history := (s.history.mark source target).ping target }
      else
        { taken.setProc target { process with recv := .ping } with
          history := s.history.mark source target }
  | .pong nMsgs =>
      if target ≠ 0 then
        { taken.setProc target { process with recv := .pong } with
          history := s.history.mark source target }
      else
        { taken.setProc target
            { process with nMsgsRecvd := nMsgs ++ process.nMsgsRecvd, recv := .push } with
          history := s.history.mark source target }

/-- The receiver goes on in `recv_msg`; `pending` is the answer of
`has_pending_messages` where it is tested. -/
def State.resume (s : State n) (pid : Fin n) (pending : Bool) : Option (State n) :=
  let process := s.proc pid
  match process.recv with
  | .idle => none
  | .ping => some (s.setProc pid { process.countPending pending with recv := .bcast })
  | .bcast =>
      let sent := { s with
        chan := s.chan.post pid ((others pid).filter (· ≠ 0)) (.pong [])
        history := s.history.ping pid }
      if process.flushCount = 2 - (n : Int) then
        some (sent.setProc pid { process with flushCount := 1, recv := .pong })
      else
        some (sent.setProc pid
          { process with flushCount := process.flushCount + (n - 2), recv := .idle })
  | .pong =>
      some (s.setProc pid
        { process with
          flushCount := process.flushCount - 1
          recv := if process.flushCount - 1 = 0 then .report else .idle })
  | .report => some (s.setProc pid { process.countPending pending with recv := .exchange })
  | .exchange =>
      some (s.setProc pid { process with nMsgsRecvd := [], recv := .send process.nMsgsRecvd })
  | .send nMsgs =>
      some { s.setProc pid { process with recv := .idle } with
        chan := s.chan.send pid [(0, .pong nMsgs)]
        history := s.history.report pid }
  | .push => some { s.setProc pid { process with recv := .idle } with sync := s.sync + 1 }

inductive Action (n : Nat) where
  | send (source target : Fin n)
  | receive (source target : Fin n)
  | resume (pid : Fin n) (pending : Bool)
  | flush
  | pop
  | exchange
  deriving DecidableEq

def step (s : State n) : Action n → Option (State n)
  | .send source target =>
      if source = target then none
      else
        let app : App n := ⟨s.history.sent.length, source, target, s.history.pinged source⟩
        some { s with
          chan := s.chan.send source [(target, .app app)]
          history := { s.history with sent := app :: s.history.sent } }
  | .receive source target =>
      if (s.proc target).recv = .idle then
        match s.chan source target with
        | [] => none
        | message :: rest => some (s.recvMsg source target rest message)
      else none
  | .resume pid pending => s.resume pid pending
  | .flush =>
      match s.main with
      | .outside =>
          some { s with
            chan := s.chan.post 0 (others 0) .ping
            main := .sync 0
            history := s.history.ping 0 }
      | .sync _ => none
  | .pop =>
      match s.main with
      | .outside => none
      | .sync popped =>
          if popped < n - 1 ∧ 0 < s.sync then
            some { s with sync := s.sync - 1, main := .sync (popped + 1) }
          else none
  | .exchange =>
      match s.main with
      | .outside => none
      | .sync popped =>
          if popped < n - 1 then none
          else
            some { s.setProc 0 { s.proc 0 with nMsgsRecvd := [] } with
              main := .outside
              results := s.results ++ [(s.proc 0).nMsgsRecvd] }

def start (n : Nat) : State n where
  proc _ := { nMsgsRecvd := [], flushCount := 0, recv := .idle }
  chan _ _ := []
  sync := 0
  main := .outside
  results := []
  history :=
    { pinged := fun _ => 0
      marks := fun _ _ => 0
      reported := fun _ => 0
      sent := []
      received := fun _ => none }

def system (n : Nat) [NeZero n] : System (State n) (Action n) where
  Initial s := s = start n
  step := step

end Host

end CnC.Flush
