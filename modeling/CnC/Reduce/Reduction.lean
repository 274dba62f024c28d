import CnC.Library.Combinable
import CnC.Library.Network
import CnC.Library.Transition

/-!
# A distributed reduction

One reduction of a reduction graph.  Items are reduced locally, until the count
of the reduction is put.  The process on which it is put owns the reduction: it
broadcasts the count through a binary tree of which it is the root, the counts
of items are gathered through the tree, and items which are put later are
reported to the owner directly.  When the owner has seen as many items as it
expects, it broadcasts DONE, gathers the values through the tree and puts the
reduced value.

The callbacks run in any number of threads on each process, and messages are
handled by one more thread.  Every step of a thread is one atomic operation of
the source: a load, a store, an increment, an exchange, a switch of the status,
a message sent, or the put of the value.
-/

namespace CnC.Reduce

open Network Transition

variable {n : Nat} {Thread α : Type}

inductive Status where
  | localOnly
  | cntAvailable
  | bcastDone
  | finish
  | done
  deriving DecidableEq

/-- BCASTCOUNT, GATHERCOUNT, DONE and VALUE.  A GATHERCOUNT is the reply to a
BCASTCOUNT, or an extra count for the owner; no handler can tell. -/
inductive Msg (n : Nat) (α : Type) where
  | bcastCount (owner : Fin n) (cnt : Int)
  | gatherCount (cnt : Int) (reply : Bool)
  | done (owner : Fin n)
  | value (val : α)

/-- Thread-local storage of the reduction on one process.  `slots` are the values of
the combinable, one for each thread which has used it. -/
structure RedTls (procs : Nat) (Thread α : Type) where
  slots : Combinable (Option Thread) α
  nreduced : Int
  n : Int
  locked : Bool
  nCounts : Int
  nValues : Int
  owner : Option (Fin procs)
  status : Status

/-- What `nCounts` is after an addition, which wraps around. -/
def RedTls.addCounts (tls : RedTls n Thread α) (difference : Int) : Int :=
  (tls.nCounts + difference).bmod (2 ^ 32)

/-- The next operation of a thread, with the values which it has loaded.  The
operations are those of `on_item_put::on_put`, `send_count`, `on_done`,
`try_send_or_put_value`, `try_put_value`, `on_count_put::on_put`,
`on_bcastCount` and `on_gatherCount`. -/
inductive Pc (n : Nat) (α : Type) where
  | idle
  | addValue (val : α) (source : Option (Fin n))
  | itemCount
  | itemStatus (count : Int)
  | itemOwner (count : Int)
  | itemTest (count : Int)
  | itemCounts
  | itemSend
  | exchange (receiver : Fin n) (always : Bool)
  | sendCount (receiver : Fin n) (cnt : Int) (always : Bool)
  | doneOwner (owner : Fin n)
  | doneSwitch (owner : Fin n)
  | doneValues (owner : Fin n)
  | doneBcast (owner : Fin n)
  | doneAdd (sent : Nat)
  | doneFinish
  | doneRelease
  | subValue (source : Option (Fin n))
  | valueOwner
  | valueStatus
  | valueN
  | valueReduced (n : Int)
  | valueCombine
  | valueSend (val : α)
  | valueDone
  | putReduced (fromCount : Bool)
  | putN (fromCount : Bool) (nreduced : Int)
  | putLock (fromCount : Bool)
  | putStatus (fromCount : Bool)
  | putOut
  | putDone
  | putUnlock (fromCount : Bool)
  | countN
  | flagSwitch
  | flagCounts
  | bcastOwner (owner : Fin n) (cnt : Int)
  | bcastN (owner : Fin n) (cnt : Int)
  | bcastSwitch (owner : Fin n) (cnt : Int)
  | bcastCounts (owner : Fin n) (cnt : Int)
  | bcastSend (owner : Fin n) (cnt : Int)
  | bcastAdd (owner : Fin n) (sent : Nat)
  | bcastRelease (owner : Fin n)
  | gatherAdd (source : Fin n) (cnt : Int) (reply : Bool)
  | gatherRelease (source : Fin n) (reply : Bool)
  | gatherOwner
  | gatherN
  | gatherTest (n : Int)
  | gatherSend
  deriving DecidableEq

structure Part (n : Nat) where
  heard : Bool
  sent : Bool
  replied : Bool
  collected : Finset (Fin n)

/-- What has happened on a process: the items put there and how many of them have
been counted, its part in the gathering of the counts and of the values, the
processes whose VALUE it has added, the extra counts it has received, the value
it has sent, how often it has switched the reduction to BCAST_DONE, whether the
count has been put there, and the values put into the output collection.  No
thread reads it. -/
structure Log (n : Nat) (α : Type) where
  items : List α
  counted : Nat
  counts : Part n
  values : Part n
  added : Finset (Fin n)
  extras : Nat
  sentValue : α
  fired : Nat
  put : Bool
  out : List α

/-- A process with its threads; `none` is the thread which handles messages. -/
structure Process (n : Nat) (Thread α : Type) where
  tls : RedTls n Thread α
  pcs : Option Thread → Pc n α
  log : Log n α

structure State (n : Nat) (Thread α : Type) where
  proc : Fin n → Process n Thread α
  chan : Channels (Fin n) (Msg n α)

def position (root mpid : Fin n) : Nat :=
  if root ≤ mpid then mpid - root else mpid + n - root

def atPosition (root : Fin n) (r : Nat) : Fin n :=
  ⟨(root + r) % n, Nat.mod_lt _ root.pos⟩

def myParentForRoot (root mpid : Fin n) : Fin n :=
  atPosition root ((position root mpid - 1) / 2)

/-- The receivers of `bcast`. -/
def bcast (root mpid : Fin n) : List (Fin n) :=
  let r1 := (position root mpid + 1) * 2 - 1
  if r1 < n then
    if r1 < n - 1 then [atPosition root r1, atPosition root (r1 + 1)]
    else [atPosition root r1]
  else []

/-- `add_value` in the slot of the thread, which is new if the thread has none. -/
def addValue [DecidableEq Thread] [Mul α] [One α] [Inhabited α] (thread : Option Thread) (val : α)
    (slots : Combinable (Option Thread) α) : Combinable (Option Thread) α :=
  (slots.make thread).set thread ((slots.get thread).getD 1 * val)

def Process.goto [DecidableEq Thread] (process : Process n Thread α) (thread : Option Thread)
    (pc : Pc n α) : Process n Thread α :=
  { process with pcs := Function.update process.pcs thread pc }

/-- `compare_exchange_strong` on the status. -/
def switch (expected desired status : Status) : Status :=
  if status = expected then desired else status

section Operations

variable [DecidableEq Thread] [Mul α] [One α] [Inhabited α]

/-- `try_put_value` returns false: the callback of the count goes on with
`on_bcastCount`. -/
def Process.notPut (process : Process n Thread α) (thread : Option Thread) (me : Fin n)
    (count : Int) (fromCount : Bool) : Process n Thread α :=
  if fromCount then
    { process.goto thread (.bcastOwner me count) with
      log := { process.log with counts := { process.log.counts with heard := true } } }
  else process.goto thread .idle

/-- `send_count` to another process. -/
def sendCount (me receiver : Fin n) (always : Bool) : Pc n α :=
  if receiver = me then .idle else .exchange receiver always

/-- One operation of a thread, and the messages which it sends.  Only the lock of
the reduction makes a thread wait. -/
def advance (me : Fin n) (count : Int) (process : Process n Thread α) (thread : Option Thread) :
    Option (Process n Thread α × List (Fin n × Msg n α)) :=
  let tls := process.tls
  let log := process.log
  let goto := process.goto thread
  match process.pcs thread with
  | .idle => none
  | .addValue val none =>
      some ({ goto .itemCount with tls := { tls with slots := addValue thread val tls.slots } }, [])
  | .addValue val (some source) =>
      some ({ goto (.subValue (some source)) with
        tls := { tls with slots := addValue thread val tls.slots }
        log := { log with added := insert source log.added } }, [])
  | .itemCount =>
      some ({ goto (.itemStatus (tls.nreduced + 1)) with
        tls := { tls with nreduced := tls.nreduced + 1 }
        log := { log with counted := log.counted + 1 } }, [])
  | .itemStatus counted =>
      some (goto (if tls.status ≠ .localOnly then .itemOwner counted else .idle), [])
  | .itemOwner counted =>
      some (goto (if tls.owner = some me then .itemTest counted else .itemSend), [])
  | .itemTest counted => some (goto (if counted = tls.n then .itemCounts else .idle), [])
  | .itemCounts => some (goto (if tls.nCounts ≤ 0 then .doneOwner me else .idle), [])
  | .itemSend =>
      some (goto (match tls.owner with
        | none => .idle
        | some owner => sendCount me owner false), [])
  | .exchange receiver always =>
      some ({ goto (if always ∨ 0 < tls.nreduced then .sendCount receiver tls.nreduced always
          else .idle) with
        tls := { tls with nreduced := 0 }
        log := { log with
          counts := { log.counts with replied := log.counts.replied || always } } }, [])
  | .sendCount receiver cnt always => some (goto .idle, [(receiver, .gatherCount cnt always)])
  | .doneOwner owner =>
      some ({ goto (.doneSwitch owner) with tls := { tls with owner := some owner } }, [])
  | .doneSwitch owner =>
      if owner ≠ me then
        some ({ goto (.doneValues owner) with
          log := { log with values := { log.values with heard := true } } }, [])
      else if tls.status = .cntAvailable then
        some ({ goto (.doneValues owner) with
          tls := { tls with status := .bcastDone }
          log := { log with
            values := { log.values with heard := true }
            fired := log.fired + 1 } }, [])
      else some (goto .idle, [])
  | .doneValues owner =>
      some ({ goto (.doneBcast owner) with tls := { tls with nValues := 1000 } }, [])
  | .doneBcast owner =>
      some ({ goto (.doneAdd (bcast owner me).length) with
        log := { log with values := { log.values with sent := true } } },
        (bcast owner me).map fun receiver => (receiver, .done owner))
  | .doneAdd sent =>
      some ({ goto .doneFinish with tls := { tls with nValues := tls.nValues + sent } }, [])
  | .doneFinish =>
      some ({ goto .doneRelease with
        tls := { tls with status := switch .bcastDone .finish tls.status } }, [])
  | .doneRelease =>
      some ({ goto (.subValue none) with tls := { tls with nValues := tls.nValues - 999 } }, [])
  | .subValue source =>
      some ({ goto (if tls.nValues = 1 then .valueOwner else .idle) with
        tls := { tls with nValues := tls.nValues - 1 }
        log := { log with values := { log.values with
          collected := log.values.collected ∪ source.toFinset } } }, [])
  | .valueOwner =>
      some (goto (if tls.owner = some me then .valueStatus else .valueCombine), [])
  | .valueStatus => some (goto (if tls.status = .finish then .valueN else .idle), [])
  | .valueN => some (goto (.valueReduced tls.n), [])
  | .valueReduced loaded =>
      some ({ goto (.putReduced false) with tls := { tls with nreduced := loaded } }, [])
  | .valueCombine =>
      some ({ goto (.valueSend tls.slots.combine) with
        log := { log with
          values := { log.values with replied := true }
          sentValue := tls.slots.combine } }, [])
  | .valueSend val =>
      some (goto .valueDone, match tls.owner with
        | none => []
        | some owner => [(myParentForRoot owner me, .value val)])
  | .valueDone => some ({ goto .idle with tls := { tls with status := .done } }, [])
  | .putReduced fromCount => some (goto (.putN fromCount tls.nreduced), [])
  | .putN fromCount loaded =>
      if loaded = tls.n then some (goto (.putLock fromCount), [])
      else some (process.notPut thread me count fromCount, [])
  | .putLock fromCount =>
      if tls.locked then none
      else some ({ goto (.putStatus fromCount) with tls := { tls with locked := true } }, [])
  | .putStatus fromCount =>
      some (goto (if tls.status ≠ .done then .putOut else .putUnlock fromCount), [])
  | .putOut =>
      some ({ goto .putDone with log := { log with out := log.out ++ [tls.slots.combine] } }, [])
  | .putDone => some ({ goto (.putUnlock false) with tls := { tls with status := .done } }, [])
  | .putUnlock fromCount =>
      some ({ process.notPut thread me count fromCount with tls := { tls with locked := false } }, [])
  | .countN => some ({ goto (.putReduced true) with tls := { tls with n := count } }, [])
  | .flagSwitch =>
      some ({ goto .flagCounts with
        tls := { tls with status := switch .localOnly .cntAvailable tls.status } }, [])
  | .flagCounts => some ({ goto (.doneOwner me) with tls := { tls with nCounts := 0 } }, [])
  | .bcastOwner owner cnt =>
      some ({ goto (.bcastN owner cnt) with tls := { tls with owner := some owner } }, [])
  | .bcastN owner cnt =>
      some ({ goto (.bcastSwitch owner cnt) with tls := { tls with n := cnt } }, [])
  | .bcastSwitch owner cnt =>
      some ({ goto (.bcastCounts owner cnt) with
        tls := { tls with status := switch .localOnly .cntAvailable tls.status } }, [])
  | .bcastCounts owner cnt =>
      some ({ goto (.bcastSend owner cnt) with tls := { tls with nCounts := 1 } }, [])
  | .bcastSend owner cnt =>
      some ({ goto (.bcastAdd owner (bcast owner me).length) with
        log := { log with counts := { log.counts with sent := true } } },
        (bcast owner me).map fun receiver => (receiver, .bcastCount owner cnt))
  | .bcastAdd owner sent =>
      some ({ goto (.bcastRelease owner) with
        tls := { tls with nCounts := tls.addCounts sent } }, [])
  | .bcastRelease owner =>
      some ({ goto (if tls.addCounts (-1) = 0 ∧ owner ≠ me then
          sendCount me (myParentForRoot owner me) true else .idle) with
        tls := { tls with nCounts := tls.addCounts (-1) } }, [])
  | .gatherAdd source cnt reply =>
      some ({ goto (.gatherRelease source reply) with
        tls := { tls with nreduced := tls.nreduced + cnt } }, [])
  | .gatherRelease source reply =>
      some ({ goto (if tls.addCounts (-1) ≤ 0 then .gatherOwner else .idle) with
        tls := { tls with nCounts := tls.addCounts (-1) }
        log := if reply then
            { log with counts := { log.counts with
              collected := insert source log.counts.collected } }
          else { log with extras := log.extras + 1 } }, [])
  | .gatherOwner => some (goto (if tls.owner = some me then .gatherN else .gatherSend), [])
  | .gatherN => some (goto (.gatherTest tls.n), [])
  | .gatherTest loaded => some (goto (if loaded = tls.nreduced then .doneOwner me else .idle), [])
  | .gatherSend =>
      some (goto (match tls.owner with
        | none => .idle
        | some owner => sendCount me (myParentForRoot owner me) true), [])

end Operations

def handler (source : Fin n) : Msg n α → Pc n α
  | .bcastCount owner cnt => .bcastOwner owner cnt
  | .gatherCount cnt reply => .gatherAdd source cnt reply
  | .done owner => .doneOwner owner
  | .value val => .addValue val (some source)

/-- The handler of a BCASTCOUNT begins. -/
def Log.hear (log : Log n α) : Msg n α → Log n α
  | .bcastCount _ _ => { log with counts := { log.counts with heard := true } }
  | _ => log

inductive Action (n : Nat) (Thread α : Type) where
  | putItem (pid : Fin n) (thread : Thread) (val : α)
  | putCount (thread : Thread)
  | receive (source target : Fin n)
  | run (pid : Fin n) (thread : Option Thread)

def State.setProc (s : State n Thread α) (pid : Fin n) (process : Process n Thread α) :
    State n Thread α :=
  { s with proc := Function.update s.proc pid process }

section Steps

variable [DecidableEq Thread] [Mul α] [One α] [Inhabited α]

/-- The count is put on the process `owner`. -/
def step (owner : Fin n) (count : Int) (s : State n Thread α) :
    Action n Thread α → Option (State n Thread α)
  | .putItem pid thread val =>
      match (s.proc pid).pcs thread with
      | .idle =>
          some (s.setProc pid { (s.proc pid).goto thread (.addValue val none) with
            log := { (s.proc pid).log with items := (s.proc pid).log.items ++ [val] } })
      | _ => none
  | .putCount thread =>
      match (s.proc owner).pcs thread with
      | .idle =>
          some (s.setProc owner
            { (s.proc owner).goto thread (if count = -1 then .flagSwitch else .countN) with
              log := { (s.proc owner).log with put := true } })
      | _ => none
  | .receive source target =>
      match (s.proc target).pcs none, s.chan source target with
      | .idle, message :: rest =>
          some { s.setProc target { (s.proc target).goto none (handler source message) with
              log := (s.proc target).log.hear message } with
            chan := s.chan.setQueue source target rest }
      | _, _ => none
  | .run pid thread =>
      (advance pid count (s.proc pid) thread).map fun result =>
        { s.setProc pid result.1 with chan := s.chan.send pid result.2 }

/-- Nothing has been put. -/
def Process.start : Process n Thread α where
  tls :=
    { slots := []
      nreduced := 0
      n := -1
      locked := false
      nCounts := -1
      nValues := -1
      owner := none
      status := .localOnly }
  pcs _ := .idle
  log :=
    { items := []
      counted := 0
      counts := ⟨false, false, false, ∅⟩
      values := ⟨false, false, false, ∅⟩
      added := ∅
      extras := 0
      sentValue := 1
      fired := 0
      put := false
      out := [] }

def start (n : Nat) (Thread α : Type) [One α] : State n Thread α where
  proc _ := Process.start
  chan _ _ := []

def system (owner : Fin n) (count : Int) : System (State n Thread α) (Action n Thread α) where
  Initial s := s = start n Thread α
  step := step owner count

end Steps

def State.items (s : State n Thread α) : Nat :=
  ∑ pid, (s.proc pid).log.items.length

/-- All callbacks and handlers have returned. -/
def State.Idle (s : State n Thread α) : Prop :=
  ∀ pid thread, (s.proc pid).pcs thread = .idle

/-- The count is put once, and no more items than it says.  With the count -1, all
items are put before it. -/
def Puts (owner : Fin n) (count : Int) (s : State n Thread α) : Action n Thread α → Prop
  | .putItem _ _ _ =>
      if count = -1 then (s.proc owner).log.put = false else (s.items : Int) < count
  | .putCount _ => (s.proc owner).log.put = false ∧ (count = -1 → s.Idle)
  | _ => True

instance [Fintype Thread] [DecidableEq α] (s : State n Thread α) : Decidable s.Idle :=
  inferInstanceAs (Decidable (∀ _ _, _))

instance [Fintype Thread] [DecidableEq α] (owner : Fin n) (count : Int) (s : State n Thread α)
    (action : Action n Thread α) : Decidable (Puts owner count s action) :=
  match action with
  | .putItem _ _ _ => inferInstanceAs (Decidable
      (if count = -1 then (s.proc owner).log.put = false else (s.items : Int) < count))
  | .putCount _ => inferInstanceAs (Decidable (_ ∧ _))
  | .receive _ _ => inferInstanceAs (Decidable True)
  | .run _ _ => inferInstanceAs (Decidable True)

end CnC.Reduce
