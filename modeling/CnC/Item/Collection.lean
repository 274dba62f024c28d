import CnC.Item.Table
import CnC.Library.Network
import CnC.Library.Transition

/-!
# Item collections on several processes

Every process has its own item table.  A put delivers the item to the processes
which `consumed_on` names; a get of a missing item requests it.  Get-counts
are decremented at the owner: other processes collect their decrements and send
them, and the owner tells all processes to erase an item whose count is used up.

The atomic steps are the sections under the accessor of one table entry, and
the handling of messages.  A put sends the item before it inserts it locally,
and a decrement is recorded in the table before it is collected, so each of
these is two steps.  The tags of a `GET_COUNTS` or `ERASE` message are handled
one after the other.  Gathering, probing and resetting are not part of the
model.
-/

namespace CnC.Item

open Network Transition

universe u

variable {n : Nat} {Tag Item : Type u}

inductive Msg (n : Nat) (Tag Item : Type u) where
  | request (tag : Tag) (recpnt : Fin n)
  | deliver (owner : Fin n) (tag : Tag) (item : Item)
  | deliverToOwn (tag : Tag) (item : Item)
  | getCounts (pid : Fin n) (tags : List Tag) (enterSafe : Bool)
  | erase (tags : List Tag) (enterSafe : Bool)
  deriving DecidableEq

abbrev Sent (n : Nat) (Tag Item : Type u) := List (Fin n × Msg n Tag Item)

/-- The collection on one process.  `sers` and `erasedSer` are the messages in
preparation, `putting` lists the puts which have delivered their item to the
other processes and not yet inserted it, and `getList` the tags in the get
lists of the running step instances. -/
structure Process (n : Nat) (Tag Item : Type u) where
  table : Tag → Option (Entry n Item)
  sers : Fin n → Option (List Tag)
  numgc : Nat
  erasedSer : Option (List Tag)
  gCounting : Nat
  gathering : Nat
  getList : List Tag
  putting : List (Tag × Item × Fin n)

def Process.entry (process : Process n Tag Item) (tag : Tag) : Entry n Item :=
  (process.table tag).getD .placeholder

def broadcast (self : Fin n) (message : Msg n Tag Item) : Sent n Tag Item :=
  (others self).map fun receiver => (receiver, message)

/-- `deliver` to a list of receivers, which may contain the process itself. -/
def deliver (self : Fin n) (tag : Tag) (item : Item) (recpnts : List (Fin n))
    (owner : Fin n) : Sent n Tag Item :=
  (recpnts.filter fun receiver => receiver ≠ self).map fun receiver =>
    (receiver, .deliver owner tag item)

/-- The process following the given one. -/
def nextPid (self : Fin n) : Fin n :=
  ⟨(self + 1) % n, Nat.mod_lt _ self.pos⟩

/-- `deliver_to_consumers` for one consumer: the owner of the item, whether the
item is to be inserted locally, and the messages sent. -/
def deliverToConsumer (self : Fin n) (tag : Tag) (item : Item) :
    Consumer n → Fin n × Bool × Sent n Tag Item
  | .pid consumer =>
      if consumer = self then (self, true, [])
      else (consumer, false, [(consumer, .deliverToOwn tag item)])
  | .unknown => (self, true, [])
  | .here => (self, true, [])
  | .all => (self, true, broadcast self (.deliver self tag item))
  | .allOthers => (nextPid self, false, broadcast self (.deliver (nextPid self) tag item))

def Consumer.pid? : Consumer n → Option (Fin n)
  | .pid process => some process
  | _ => none

/-- `deliver_to_consumers`.  Only process ids are allowed in a vector with
several entries. -/
def deliverToConsumers (self : Fin n) (tag : Tag) (item : Item) :
    Consumers n → Option (Fin n × Bool × Sent n Tag Item)
  | .single consumer => some (deliverToConsumer self tag item consumer)
  | .vector [] => some (self, true, [])
  | .vector [consumer] => some (deliverToConsumer self tag item consumer)
  | .vector consumers =>
      match consumers.mapM Consumer.pid? with
      | some (owner :: rest) =>
          some (owner, decide (self ∈ owner :: rest),
            deliver self tag item (owner :: rest) owner)
      | _ => none

/-- The first part of `put_or_delete`, which sends the item away if there are
other processes. -/
def deliverPut (self : Fin n) (tag : Tag) (item : Item) (consumers : Consumers n) :
    Option (Fin n × Bool × Sent n Tag Item) :=
  if n ≤ 1 then some (self, true, []) else deliverToConsumers self tag item consumers

section Steps

variable [DecidableEq Tag] (tuner : Tuner n Tag) (self : Fin n)

def Process.setEntry (process : Process n Tag Item) (tag : Tag)
    (entry : Option (Entry n Item)) : Process n Tag Item :=
  { process with table := Function.update process.table tag entry }

/-- The part of `put_or_delete` which inserts the item locally, with the
messages to the subscribers and whether the `on_put` callbacks are called. -/
def putOrDelete (process : Process n Tag Item) (tag : Tag) (item : Item) (owner : Fin n) :
    Process n Tag Item × Sent n Tag Item × Bool :=
  let getcount := tuner.getCount tag
  if getcount = 0 ∧ owner = self then (process, [], true)
  else
    let getcount := if getcount ≠ noGetCount ∧ owner ≠ self then 0 else getcount
    match putItem (process.table tag) item getcount owner with
    | (entry, true) =>
        (process.setEntry tag (some { entry with suspendGroup := 0, subscribers := [] }),
          if owner = self then deliver self tag item entry.subscribers self else [],
          decide (owner = self))
    | (_, false) => (process, [], false)

/-- `put_request`: ask the producer, or everybody if it is not known. -/
def putRequest (tag : Tag) : Producer n → Sent n Tag Item
  | .pid producer => if producer = self then [] else [(producer, .request tag self)]
  | .here => []
  | .unknown => broadcast self (.request tag self)

/-- `wait_for_put`, on the entry without an item: a step instance joins the
suspend group.  The item is requested by the first one only. -/
def waitForPut (process : Process n Tag Item) (tag : Tag) (entry : Entry n Item) :
    Process n Tag Item × Sent n Tag Item :=
  (process.setEntry tag (some entry.suspend),
    if entry.suspendGroup = 0 ∧ consumersUnspecified (tuner.consumedOn tag) then
      putRequest self tag (tuner.producedOn self tag)
    else [])

/-- `block_for_put`: the environment joins the suspend group and asks
everybody. -/
def blockForPut (process : Process n Tag Item) (tag : Tag) (entry : Entry n Item) :
    Process n Tag Item × Sent n Tag Item :=
  (process.setEntry tag (some entry.suspend),
    putRequest self tag .unknown)

/-- A get by a step instance.  The tag goes to its get list if the item has a
get-count. -/
def get (process : Process n Tag Item) (tag : Tag) : Process n Tag Item × Sent n Tag Item :=
  let entry := process.entry tag
  match entry.item with
  | some _ =>
      if entry.getCount ≠ noGetCount then
        ({ process with getList := tag :: process.getList }, [])
      else (process, [])
  | none => waitForPut tuner self process tag entry

def getFromEnv (process : Process n Tag Item) (tag : Tag) :
    Process n Tag Item × Sent n Tag Item :=
  let entry := process.entry tag
  match entry.item with
  | some _ => (process, [])
  | none => blockForPut self process tag entry

/-- `get_request`: the owner delivers the item; a process without the item
notes the subscriber. -/
def getRequest (process : Process n Tag Item) (tag : Tag) (recpnt : Fin n) :
    Process n Tag Item × Sent n Tag Item :=
  let entry := process.entry tag
  match entry.item with
  | some item =>
      (process, if entry.owner = some self then [(recpnt, .deliver self tag item)] else [])
  | none =>
      (process.setEntry tag (some (entry.subscribe recpnt)), [])

def sendErased (process : Process n Tag Item) (enterSafe : Bool) :
    Process n Tag Item × Sent n Tag Item :=
  let tags := process.erasedSer.getD []
  if enterSafe ∨ tags.length > tuner.enableGC / 2 then
    if process.erasedSer = none ∧ ¬ enterSafe then (process, [])
    else ({ process with erasedSer := none }, broadcast self (.erase tags enterSafe))
  else (process, [])

def addErased (process : Process n Tag Item) (tag : Tag) (send : Bool) :
    Process n Tag Item × Sent n Tag Item :=
  if n > 1 ∧ ¬ amOnlyConsumer self (tuner.consumedOn tag) then
    let noted := { process with erasedSer := some (process.erasedSer.getD [] ++ [tag]) }
    if send then sendErased tuner self noted false else (noted, [])
  else (process, [])

/-- `decrement_ref_count` on an entry, up to the collecting: the entry is erased
if its count is used up. -/
def decrementEntry (process : Process n Tag Item) (tag : Tag) (entry : Entry n Item)
    (send : Bool) : Process n Tag Item × Sent n Tag Item :=
  let counted := entry.setOrIncrementGetCount (-1)
  if counted.2 = 0 then
    let erased := process.setEntry tag none
    if tuner.enableGC ≠ 0 then addErased tuner self erased tag send else (erased, [])
  else (process.setEntry tag (some counted.1), [])

/-- `decrement_ref_count`.  A decrement from another process may arrive before
the item; a local one without an entry aborts. -/
def decrementRefCount (process : Process n Tag Item) (tag : Tag) (send : Bool) :
    Option (Process n Tag Item × Sent n Tag Item) :=
  match process.table tag with
  | some entry => some (decrementEntry tuner self process tag entry send)
  | none =>
      if send then none
      else some (decrementEntry tuner self process tag (Entry.placeholder.setGetCount 0) send)

/-- `get_count_collector::send_getcounts`. -/
def sendGetcounts (process : Process n Tag Item) (enterSafe : Bool) :
    Process n Tag Item × Sent n Tag Item :=
  ({ process with sers := fun _ => none },
    (List.finRange n).filterMap fun receiver =>
      match process.sers receiver with
      | some tags => some (receiver, .getCounts self tags enterSafe)
      | none =>
          if enterSafe ∧ receiver ≠ self then some (receiver, .getCounts self [] enterSafe)
          else none)

/-- `get_count_collector::collect`: move the decrements of an entry to the
message for its owner, one tag for each. -/
def getCountCollect (process : Process n Tag Item) (tag : Tag) (owner : Fin n) :
    Process n Tag Item :=
  { process.setEntry tag (some ((process.entry tag).setGetCount 0)) with
    sers := Function.update process.sers owner (some ((process.sers owner).getD [] ++
      List.replicate (-(process.entry tag).getCount).toNat tag)) }

/-- The rest of `decrement_ref_count`, on an entry with recorded decrements and
an owner. -/
def collect (process : Process n Tag Item) (tag : Tag) :
    Option (Process n Tag Item × Sent n Tag Item) :=
  match (process.entry tag).owner with
  | none => none
  | some owner =>
      if (process.entry tag).recorded < 0 ∧ (process.entry tag).getCount ≠ noGetCount ∧
          tuner.enableGC ≠ 0 then
        let collected := getCountCollect process tag owner
        if process.numgc + 1 > tuner.enableGC then
          let flushed := sendGetcounts self collected false
          some ({ flushed.1 with numgc := 0 }, flushed.2)
        else some ({ collected with numgc := process.numgc + 1 }, [])
      else none

def eraseAlien (process : Process n Tag Item) (tag : Tag) : Process n Tag Item :=
  process.setEntry tag none

end Steps

/-- What has happened in a run, for each tag: the owner which the put assigned
and the item, the gets of committed executions, the decrements applied on each process, the
processes on which a get or the environment was suspended, those which erased
the item because its count was used up, and those which erased their entry for
this or by request.  No step reads it. -/
structure History (n : Nat) (Tag Item : Type u) where
  owner : Tag → Option (Fin n)
  value : Tag → Option Item
  committed : Tag → Nat
  applied : Fin n → Tag → Nat
  suspended : List (Fin n × Tag)
  collected : List (Fin n × Tag)
  erased : List (Fin n × Tag)

structure State (n : Nat) (Tag Item : Type u) where
  proc : Fin n → Process n Tag Item
  chan : Channels (Fin n) (Msg n Tag Item)
  onPuts : List (Fin n × Tag)
  history : History n Tag Item

inductive Action (n : Nat) (Tag Item : Type u) where
  | get (pid : Fin n) (tag : Tag)
  | getFromEnv (pid : Fin n) (tag : Tag)
  | put (pid : Fin n) (tag : Tag) (item : Item)
  | insert (pid : Fin n) (tag : Tag) (item : Item) (owner : Fin n)
  | commit (pid : Fin n) (tag : Tag)
  | clear (pid : Fin n) (tag : Tag)
  | collect (pid : Fin n) (tag : Tag)
  | sendGetcounts (pid : Fin n) (enterSafe : Bool)
  | sendErased (pid : Fin n) (enterSafe : Bool)
  | receive (source target : Fin n)

def State.apply (s : State n Tag Item) (pid : Fin n)
    (result : Process n Tag Item × Sent n Tag Item) : State n Tag Item :=
  { s with
    proc := Function.update s.proc pid result.1
    chan := s.chan.send pid result.2 }

def State.setQueue (s : State n Tag Item) (source target : Fin n)
    (queue : List (Msg n Tag Item)) : State n Tag Item :=
  { s with chan := s.chan.setQueue source target queue }

section System

variable [DecidableEq Tag]

def History.assign (history : History n Tag Item) (tag : Tag) (item : Item) (owner : Fin n) :
    History n Tag Item :=
  { history with
    owner := Function.update history.owner tag (some owner)
    value := Function.update history.value tag (some item) }

def History.suspend (history : History n Tag Item) (pid : Fin n) (tag : Tag) : History n Tag Item :=
  { history with suspended := (pid, tag) :: history.suspended }

def History.commit (history : History n Tag Item) (tag : Tag) : History n Tag Item :=
  { history with
    committed := Function.update history.committed tag (history.committed tag + 1) }

def History.decrement (history : History n Tag Item) (pid : Fin n) (tag : Tag) (gone : Bool) :
    History n Tag Item :=
  { history with
    applied := Function.update history.applied pid
      (Function.update (history.applied pid) tag (history.applied pid tag + 1))
    collected := if gone then (pid, tag) :: history.collected else history.collected
    erased := if gone then (pid, tag) :: history.erased else history.erased }

def History.erase (history : History n Tag Item) (pid : Fin n) (tag : Tag) : History n Tag Item :=
  { history with erased := (pid, tag) :: history.erased }

variable (tuner : Tuner n Tag)

def State.getAt (s : State n Tag Item) (pid : Fin n) (tag : Tag)
    (result : Process n Tag Item × Sent n Tag Item) : State n Tag Item :=
  { s.apply pid result with
    history :=
      if ((s.proc pid).entry tag).item.isNone then s.history.suspend pid tag else s.history }

def State.insertAt (s : State n Tag Item) (pid : Fin n) (process : Process n Tag Item)
    (tag : Tag) (item : Item) (owner : Fin n) : State n Tag Item :=
  let result := putOrDelete tuner pid process tag item owner
  { s.apply pid (result.1, result.2.1) with
    onPuts := if result.2.2 then (pid, tag) :: s.onPuts else s.onPuts }

def State.decrementAt (s : State n Tag Item) (pid : Fin n) (process : Process n Tag Item)
    (tag : Tag) (send : Bool) : Option (State n Tag Item) :=
  match decrementRefCount tuner pid process tag send with
  | none => none
  | some result =>
      some { s.apply pid result with
        history := s.history.decrement pid tag (result.1.table tag).isNone }

/-- `recv_msg`, for the oldest message from one process at another. -/
def State.recvMsg (s : State n Tag Item) (source target : Fin n)
    (rest : List (Msg n Tag Item)) : Msg n Tag Item → Option (State n Tag Item)
  | .request tag recpnt =>
      some ((s.setQueue source target rest).apply target
        (getRequest target (s.proc target) tag recpnt))
  | .deliver owner tag item =>
      some ((s.setQueue source target rest).insertAt tuner target
        (s.proc target) tag item owner)
  | .deliverToOwn tag item =>
      some ((s.setQueue source target rest).insertAt tuner target
        (s.proc target) tag item target)
  | .getCounts pid (tag :: tags) enterSafe =>
      (s.setQueue source target (.getCounts pid tags enterSafe :: rest)).decrementAt tuner
        target (s.proc target) tag false
  | .getCounts _ [] enterSafe =>
      some ((s.setQueue source target rest).apply target
        (if enterSafe then
          ({ s.proc target with gCounting := (s.proc target).gCounting + 1 }, [])
        else sendErased tuner target (s.proc target) false))
  | .erase (tag :: tags) enterSafe =>
      some { (s.setQueue source target (.erase tags enterSafe :: rest)).apply target
          (eraseAlien (s.proc target) tag, []) with
        history := s.history.erase target tag }
  | .erase [] enterSafe =>
      some ((s.setQueue source target rest).apply target
        (if enterSafe then { s.proc target with gathering := (s.proc target).gathering + 1 }
        else s.proc target, []))

def step [DecidableEq Item] (s : State n Tag Item) :
    Action n Tag Item → Option (State n Tag Item)
  | .get pid tag => some (s.getAt pid tag (get tuner pid (s.proc pid) tag))
  | .getFromEnv pid tag => some (s.getAt pid tag (getFromEnv pid (s.proc pid) tag))
  | .put pid tag item =>
      match deliverPut pid tag item (tuner.consumedOn tag) with
      | none => none
      | some (owner, here, sent) =>
          some { s.apply pid
              ({ s.proc pid with
                putting := if here then (tag, item, owner) :: (s.proc pid).putting
                  else (s.proc pid).putting }, sent) with
            history := s.history.assign tag item owner }
  | .insert pid tag item owner =>
      if (tag, item, owner) ∈ (s.proc pid).putting then
        some (s.insertAt tuner pid
          { s.proc pid with putting := (s.proc pid).putting.erase (tag, item, owner) }
          tag item owner)
      else none
  | .commit pid tag =>
      if tag ∈ (s.proc pid).getList then
        { s with history := s.history.commit tag }.decrementAt tuner pid
          { s.proc pid with getList := (s.proc pid).getList.erase tag } tag true
      else none
  | .clear pid tag =>
      some (s.apply pid
        ({ s.proc pid with getList := (s.proc pid).getList.erase tag }, []))
  | .collect pid tag =>
      match collect tuner pid (s.proc pid) tag with
      | none => none
      | some result => some (s.apply pid result)
  | .sendGetcounts pid enterSafe =>
      some (s.apply pid (sendGetcounts pid (s.proc pid) enterSafe))
  | .sendErased pid enterSafe =>
      some (s.apply pid (sendErased tuner pid (s.proc pid) enterSafe))
  | .receive source target =>
      match s.chan source target with
      | [] => none
      | message :: rest => s.recvMsg tuner source target rest message

def start (n : Nat) (Tag Item : Type u) : State n Tag Item where
  proc _ :=
    { table := fun _ => none
      sers := fun _ => none
      numgc := 0
      erasedSer := none
      gCounting := 0
      gathering := 0
      getList := []
      putting := [] }
  chan _ _ := []
  onPuts := []
  history :=
    { owner := fun _ => none
      value := fun _ => none
      committed := fun _ => 0
      applied := fun _ _ => 0
      suspended := []
      collected := []
      erased := [] }

def system [DecidableEq Item] : System (State n Tag Item) (Action n Tag Item) where
  Initial s := s = start n Tag Item
  step := step tuner

def PutOnce (tag : Tag) (s : State n Tag Item) : Action n Tag Item → Prop
  | .put _ other _ => other = tag → s.history.owner tag = none
  | _ => True

instance (tag : Tag) (s : State n Tag Item) (action : Action n Tag Item) :
    Decidable (PutOnce tag s action) := by
  unfold PutOnce
  split <;> infer_instance

end System

end CnC.Item
