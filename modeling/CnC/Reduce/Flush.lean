import CnC.Reduce.Values

/-!
# Flushing the reductions

`flush` finalizes all reductions of a graph, no matter whether their counts have been put.  Process
0 broadcasts ALLDONE through the tree of which it is the root.  Every process adds the values which
its children send to its own, and sends its values of all reductions to its parent; process 0 puts
them.  ALLDONE and ALLVALUES are handled by one thread, and on process 0 another one runs `flush`.
The messages of each reduction have a thread and queues of their own, which allows more orders than
one queue for all of them.

Every step of a thread is one operation on `m_nDones`, the sending of a message, the adding of one
value, or the combining of the values of one reduction.
-/

namespace CnC.Reduce.Flush

open Convergecast Network Transition

variable {n : Nat} {Id Thread α : Type}

/-- ALLDONE, and ALLVALUES with one value for each reduction of the sender. -/
inductive Msg (Id α : Type) where
  | allDone
  | allValues (vals : List (Id × α))

inductive Role where
  | caller
  | handler
  deriving DecidableEq

instance : Fintype Role where
  elems := {.caller, .handler}
  complete role := by cases role <;> simp

/-- The next operation of `flush`, of the handlers of ALLDONE and ALLVALUES, or of
`try_send_or_put_all`.  Its loops visit the reductions of `rest` in any order. -/
inductive Pc (Id α : Type) where
  | idle
  | donesStore
  | donesBcast
  | donesAdd (sent : Nat)
  | donesRelease
  | addValues (vals : List (Id × α))
  | subDones
  | putAll (rest : List Id)
  | combineAll (rest : List Id) (vals : List (Id × α))
  deriving DecidableEq

/-- The part of a process in the flush.  No thread reads the last fields: whether it has heard of
the flush, has sent ALLDONE on, and has ended its loop over the reductions, the processes whose
ALLVALUES it has received, and the values which it has sent. -/
structure Node (n : Nat) (Id α : Type) where
  nDones : Int
  pcs : Role → Pc Id α
  heard : Bool
  sent : Bool
  finished : Bool
  collected : Finset (Fin n)
  vals : List (Id × α)

/-- The reductions, and on which processes `m_reductions` has an entry for them; `out` are the
values which `flush` has put into the output collection. -/
structure State (n : Nat) (Id Thread α : Type) where
  red : Id → Reduce.State n Thread α
  keys : Fin n → List Id
  node : Fin n → Node n Id α
  chan : Channels (Fin n) (Msg Id α)
  out : List (Id × α)

inductive Action (n : Nat) (Id Thread α : Type) where
  | reduce (id : Id) (action : Reduce.Action n Thread α)
  | flush
  | receive (source target : Fin n)
  | run (pid : Fin n) (role : Role)
  | add (pid : Fin n)
  | visit (pid : Fin n) (role : Role) (id : Id)

def Node.goto (node : Node n Id α) (role : Role) (pc : Pc Id α) : Node n Id α :=
  { node with pcs := Function.update node.pcs role pc }

def State.setNode (s : State n Id Thread α) (pid : Fin n) (node : Node n Id α) :
    State n Id Thread α :=
  { s with node := Function.update s.node pid node }

def State.slots (s : State n Id Thread α) (pid : Fin n) (id : Id) :
    Combinable (Option Thread) α :=
  ((s.red id).proc pid).tls.slots

section Operations

variable [NeZero n]

/-- The loop of `try_send_or_put_all`. -/
def sendOrPutAll (me : Fin n) (keys : List Id) : Pc Id α :=
  if me = 0 then .putAll keys else .combineAll keys []

/-- One operation which does not touch the reductions, and the messages which it sends. -/
def advance (me : Fin n) (keys : List Id) (node : Node n Id α) (role : Role) :
    Option (Node n Id α × List (Fin n × Msg Id α)) :=
  let goto := node.goto role
  match node.pcs role with
  | .idle => none
  | .donesStore => some ({ goto .donesBcast with nDones := 1000 }, [])
  | .donesBcast =>
      some ({ goto (.donesAdd (bcast 0 me).length) with sent := true },
        (bcast 0 me).map fun receiver => (receiver, .allDone))
  | .donesAdd sent => some ({ goto .donesRelease with nDones := node.nDones + sent }, [])
  | .donesRelease => some ({ goto .subDones with nDones := node.nDones - 999 }, [])
  | .addValues [] => some (goto .subDones, [])
  | .subDones =>
      some ({ goto (if node.nDones = 1 then sendOrPutAll me keys else .idle) with
        nDones := node.nDones - 1 }, [])
  | .putAll [] => some ({ goto .idle with finished := true }, [])
  | .combineAll [] vals =>
      some ({ goto .idle with finished := true, vals := vals },
        [(myParentForRoot 0 me, .allValues vals)])
  | .addValues (_ :: _) | .putAll (_ :: _) | .combineAll (_ :: _) _ => none

def Node.receive (node : Node n Id α) (source : Fin n) : Msg Id α → Node n Id α
  | .allDone => { node.goto .handler .donesStore with heard := true }
  | .allValues vals =>
      { node.goto .handler (.addValues vals) with collected := insert source node.collected }

variable [DecidableEq Id]

/-- `get` makes an entry of `m_reductions` if there is none. -/
def State.get (s : State n Id Thread α) (pid : Fin n) (id : Id) : State n Id Thread α :=
  { s with keys := Function.update s.keys pid ((s.keys pid).insert id) }

/-- The callbacks and the message handlers of a reduction begin with `get`. -/
def State.getFor (s : State n Id Thread α) (owner : Fin n) (id : Id) :
    Reduce.Action n Thread α → State n Id Thread α
  | .putItem pid _ _ => s.get pid id
  | .putCount _ => s.get owner id
  | .receive _ target => s.get target id
  | .run _ _ => s

variable [DecidableEq Thread] [Mul α] [One α] [Inhabited α]

/-- `add_value` of the thread which handles messages. -/
def addReceived (red : Reduce.State n Thread α) (pid : Fin n) (val : α) :
    Reduce.State n Thread α :=
  red.setProc pid { red.proc pid with
    tls := { (red.proc pid).tls with slots := addValue none val (red.proc pid).tls.slots } }

/-- The count of a reduction is put on the process `owner id`. -/
def step (owner : Id → Fin n) (count : Id → Int) (s : State n Id Thread α) :
    Action n Id Thread α → Option (State n Id Thread α)
  | .reduce id action =>
      (Reduce.step (owner id) (count id) (s.red id) action).map fun red =>
        { s.getFor (owner id) id action with red := Function.update s.red id red }
  | .flush =>
      match (s.node 0).pcs .caller with
      | .idle => some (s.setNode 0 { (s.node 0).goto .caller .donesStore with heard := true })
      | _ => none
  | .receive source target =>
      match (s.node target).pcs .handler, s.chan source target with
      | .idle, message :: rest =>
          some { s.setNode target ((s.node target).receive source message) with
            chan := s.chan.setQueue source target rest }
      | _, _ => none
  | .run pid role =>
      (advance pid (s.keys pid) (s.node pid) role).map fun result =>
        { s.setNode pid result.1 with chan := s.chan.send pid result.2 }
  | .add pid =>
      match (s.node pid).pcs .handler with
      | .addValues ((id, val) :: rest) =>
          some { (s.get pid id).setNode pid ((s.node pid).goto .handler (.addValues rest)) with
            red := Function.update s.red id (addReceived (s.red id) pid val) }
      | _ => none
  | .visit pid role id =>
      match (s.node pid).pcs role with
      | .putAll rest =>
          if id ∈ rest then
            some { s.setNode pid ((s.node pid).goto role (.putAll (rest.erase id))) with
              out := s.out ++ [(id, (s.slots pid id).combine)] }
          else none
      | .combineAll rest vals =>
          if id ∈ rest then
            some (s.setNode pid ((s.node pid).goto role
              (.combineAll (rest.erase id) (vals ++ [(id, (s.slots pid id).combine)]))))
          else none
      | _ => none

def Node.start : Node n Id α where
  nDones := -1
  pcs _ := .idle
  heard := false
  sent := false
  finished := false
  collected := ∅
  vals := []

def start (n : Nat) (Id Thread α : Type) [One α] : State n Id Thread α where
  red _ := Reduce.start n Thread α
  keys _ := []
  node _ := Node.start
  chan _ _ := []
  out := []

def system (owner : Id → Fin n) (count : Id → Int) :
    System (State n Id Thread α) (Action n Id Thread α) where
  Initial s := s = start n Id Thread α
  step := step owner count

/-- `flush` is called once, when no callback runs and no message is in flight, and nothing is put
after that. -/
def Calls (s : State n Id Thread α) : Action n Id Thread α → Prop
  | .reduce _ (.putItem _ _ _) | .reduce _ (.putCount _) => (s.node 0).heard = false
  | .flush => (s.node 0).heard = false ∧ ∀ id, (s.red id).Idle ∧ (s.red id).chan.Empty
  | _ => True

/-- No reduction has begun to be finished when `flush` is called, and no values of no slot are
combined, unless a new slot holds the identity. -/
def Unfinished (s : State n Id Thread α) : Action n Id Thread α → Prop
  | .flush => ∀ id pid, ((s.red id).proc pid).tls.status = .localOnly ∨
      ((s.red id).proc pid).tls.status = .cntAvailable
  | .visit pid _ id => s.slots pid id ≠ [] ∨ (default : α) = 1
  | _ => True

def Flushes (s : State n Id Thread α) (action : Action n Id Thread α) : Prop :=
  Calls s action ∧ Unfinished s action

/-- All callbacks and handlers have returned, and no message is in flight. -/
def State.Quiet (s : State n Id Thread α) : Prop :=
  (∀ pid role, (s.node pid).pcs role = .idle) ∧ s.chan.Empty

/-- The values of a reduction among others. -/
def valuesOf (id : Id) (vals : List (Id × α)) : List α :=
  (vals.filter fun entry => entry.1 = id).map Prod.snd

/-- The values which have been put for a reduction, by its owner and by `flush`. -/
def State.puts (s : State n Id Thread α) (id : Id) : List α :=
  (List.finRange n).flatMap (fun pid => ((s.red id).proc pid).log.out) ++ valuesOf id s.out

/-- An item or a count has been put for the reduction. -/
def State.IsPut (owner : Id → Fin n) (s : State n Id Thread α) (id : Id) : Prop :=
  (∃ pid, ((s.red id).proc pid).log.items ≠ []) ∨ ((s.red id).proc (owner id)).log.put = true

section Decidable

variable [Fintype Id] [Fintype Thread] [DecidableEq α]

instance (s : State n Id Thread α) : DecidablePred (Calls s)
  | .reduce _ (.putItem _ _ _) | .reduce _ (.putCount _) =>
      inferInstanceAs (Decidable ((s.node 0).heard = false))
  | .flush => inferInstanceAs (Decidable (_ ∧ ∀ id, (s.red id).Idle ∧ ∀ i j,
      (s.red id).chan i j = []))
  | .reduce _ (.receive _ _) | .reduce _ (.run _ _) | .receive _ _ | .run _ _ | .add _
  | .visit _ _ _ => .isTrue trivial

instance (s : State n Id Thread α) : DecidablePred (Flushes s)
  | .flush => inferInstanceAs (Decidable (Calls s .flush ∧ ∀ _ _, _ ∨ _))
  | .visit pid role id =>
      inferInstanceAs (Decidable (Calls s (.visit pid role id) ∧ (_ ∨ (default : α) = 1)))
  | .reduce id action => inferInstanceAs (Decidable (Calls s (.reduce id action) ∧ True))
  | .receive source target => inferInstanceAs (Decidable (Calls s (.receive source target) ∧ True))
  | .run pid role => inferInstanceAs (Decidable (Calls s (.run pid role) ∧ True))
  | .add pid => inferInstanceAs (Decidable (Calls s (.add pid) ∧ True))

instance (s : State n Id Thread α) : Decidable s.Quiet :=
  inferInstanceAs (Decidable (_ ∧ ∀ i j, s.chan i j = []))

end Decidable

end Operations

section Inversion

variable [NeZero n] {me : Fin n} {keys : List Id} {node next : Node n Id α} {role : Role}
  {messages : List (Fin n × Msg Id α)}

/-- What an operation can do. -/
inductive Next (me : Fin n) (keys : List Id) (node : Node n Id α) (role : Role) :
    Node n Id α → List (Fin n × Msg Id α) → Prop
  | donesStore : node.pcs role = .donesStore →
      Next me keys node role { node.goto role .donesBcast with nDones := 1000 } []
  | donesBcast : node.pcs role = .donesBcast →
      Next me keys node role { node.goto role (.donesAdd (bcast 0 me).length) with sent := true }
        ((bcast 0 me).map fun receiver => (receiver, .allDone))
  | donesAdd {sent} : node.pcs role = .donesAdd sent →
      Next me keys node role
        { node.goto role .donesRelease with nDones := node.nDones + sent } []
  | donesRelease : node.pcs role = .donesRelease →
      Next me keys node role { node.goto role .subDones with nDones := node.nDones - 999 } []
  | added : node.pcs role = .addValues [] → Next me keys node role (node.goto role .subDones) []
  | subDones : node.pcs role = .subDones → node.nDones ≠ 1 →
      Next me keys node role { node.goto role .idle with nDones := node.nDones - 1 } []
  | last : node.pcs role = .subDones → node.nDones = 1 →
      Next me keys node role
        { node.goto role (sendOrPutAll me keys) with nDones := node.nDones - 1 } []
  | put : node.pcs role = .putAll [] →
      Next me keys node role { node.goto role .idle with finished := true } []
  | send {vals} : node.pcs role = .combineAll [] vals →
      Next me keys node role { node.goto role .idle with finished := true, vals := vals }
        [(myParentForRoot 0 me, .allValues vals)]

theorem next_of_advance (advanced : advance me keys node role = some (next, messages)) :
    Next me keys node role next messages := by
  unfold advance at advanced
  cases isPc : node.pcs role with
  | idle => simp [isPc] at advanced
  | donesStore =>
      simp only [isPc, Option.some.injEq, Prod.mk.injEq] at advanced
      obtain ⟨rfl, rfl⟩ := advanced
      exact .donesStore isPc
  | donesBcast =>
      simp only [isPc, Option.some.injEq, Prod.mk.injEq] at advanced
      obtain ⟨rfl, rfl⟩ := advanced
      exact .donesBcast isPc
  | donesAdd sent =>
      simp only [isPc, Option.some.injEq, Prod.mk.injEq] at advanced
      obtain ⟨rfl, rfl⟩ := advanced
      exact .donesAdd isPc
  | donesRelease =>
      simp only [isPc, Option.some.injEq, Prod.mk.injEq] at advanced
      obtain ⟨rfl, rfl⟩ := advanced
      exact .donesRelease isPc
  | addValues vals =>
      cases vals with
      | nil =>
          simp only [isPc, Option.some.injEq, Prod.mk.injEq] at advanced
          obtain ⟨rfl, rfl⟩ := advanced
          exact .added isPc
      | cons => simp [isPc] at advanced
  | subDones =>
      simp only [isPc, Option.some.injEq, Prod.mk.injEq] at advanced
      obtain ⟨rfl, rfl⟩ := advanced
      split
      · rename_i isLast
        exact .last isPc isLast
      · rename_i notLast
        exact .subDones isPc notLast
  | putAll rest =>
      cases rest with
      | nil =>
          simp only [isPc, Option.some.injEq, Prod.mk.injEq] at advanced
          obtain ⟨rfl, rfl⟩ := advanced
          exact .put isPc
      | cons => simp [isPc] at advanced
  | combineAll rest vals =>
      cases rest with
      | nil =>
          simp only [isPc, Option.some.injEq, Prod.mk.injEq] at advanced
          obtain ⟨rfl, rfl⟩ := advanced
          exact .send isPc
      | cons => simp [isPc] at advanced

variable [DecidableEq Id] [DecidableEq Thread] [Mul α] [One α] [Inhabited α] {owner : Id → Fin n}
  {count : Id → Int} {s after : State n Id Thread α} {action : Action n Id Thread α}

inductive Taken (owner : Id → Fin n) (count : Id → Int) (s : State n Id Thread α) :
    Action n Id Thread α → State n Id Thread α → Prop
  | reduce {id action red} : Reduce.step (owner id) (count id) (s.red id) action = some red →
      Taken owner count s (.reduce id action)
        { s.getFor (owner id) id action with red := Function.update s.red id red }
  | flush : (s.node 0).pcs .caller = .idle →
      Taken owner count s .flush
        (s.setNode 0 { (s.node 0).goto .caller .donesStore with heard := true })
  | receive {source target message rest} : (s.node target).pcs .handler = .idle →
      s.chan source target = message :: rest →
      Taken owner count s (.receive source target)
        { s.setNode target ((s.node target).receive source message) with
          chan := s.chan.setQueue source target rest }
  | run {pid role node messages} : Next pid (s.keys pid) (s.node pid) role node messages →
      Taken owner count s (.run pid role)
        { s.setNode pid node with chan := s.chan.send pid messages }
  | add {pid id val rest} : (s.node pid).pcs .handler = .addValues ((id, val) :: rest) →
      Taken owner count s (.add pid)
        { (s.get pid id).setNode pid ((s.node pid).goto .handler (.addValues rest)) with
          red := Function.update s.red id (addReceived (s.red id) pid val) }
  | put {pid role id rest} : (s.node pid).pcs role = .putAll rest → id ∈ rest →
      Taken owner count s (.visit pid role id)
        { s.setNode pid ((s.node pid).goto role (.putAll (rest.erase id))) with
          out := s.out ++ [(id, (s.slots pid id).combine)] }
  | combine {pid role id rest vals} : (s.node pid).pcs role = .combineAll rest vals → id ∈ rest →
      Taken owner count s (.visit pid role id)
        (s.setNode pid ((s.node pid).goto role
          (.combineAll (rest.erase id) (vals ++ [(id, (s.slots pid id).combine)]))))

theorem taken_of_step (stepped : step owner count s action = some after) :
    Taken owner count s action after := by
  cases action with
  | reduce id action =>
      obtain ⟨red, isRed, rfl⟩ := Option.map_eq_some_iff.mp stepped
      exact .reduce isRed
  | flush =>
      simp only [step] at stepped
      split at stepped
      · rename_i isPc
        cases stepped
        exact .flush isPc
      · cases stepped
  | receive source target =>
      simp only [step] at stepped
      split at stepped
      · rename_i message rest isPc head
        cases stepped
        exact .receive isPc head
      · cases stepped
  | run pid role =>
      obtain ⟨⟨node, messages⟩, advanced, rfl⟩ := Option.map_eq_some_iff.mp stepped
      exact .run (next_of_advance advanced)
  | add pid =>
      simp only [step] at stepped
      split at stepped
      · rename_i id val rest isPc
        cases stepped
        exact .add isPc
      · cases stepped
  | visit pid role id =>
      simp only [step] at stepped
      split at stepped
      · rename_i rest isPc
        obtain ⟨isRest, isNext⟩ := Option.ite_none_right_eq_some.mp stepped
        cases isNext
        exact .put isPc isRest
      · rename_i rest vals isPc
        obtain ⟨isRest, isNext⟩ := Option.ite_none_right_eq_some.mp stepped
        cases isNext
        exact .combine isPc isRest
      · cases stepped

end Inversion

section Stages

variable [NeZero n] {me : Fin n} {keys : List Id} {node next : Node n Id α} {role : Role}

/-- The thread which broadcasts ALLDONE. -/
def opener (me : Fin n) : Role := if me = 0 then .caller else .handler

namespace Pc

def takes : Pc Id α → Bool
  | idle | addValues _ | subDones => true
  | _ => false

/-- The decrements of `m_nDones` which the thread has still to do. -/
def due : Pc Id α → Nat
  | addValues _ | subDones => 1
  | _ => 0

def isLoop (me : Fin n) : Pc Id α → Bool
  | putAll _ => decide (me = 0)
  | combineAll _ _ => decide (me ≠ 0)
  | _ => false

end Pc

def Node.due (node : Node n Id α) : Nat :=
  (node.pcs .caller).due + (node.pcs .handler).due

/-- How far a process is: it has not heard of the flush, `m_nDones` is biased while ALLDONE is
broadcast, it waits for its children, it is in its loop over the reductions, or it has ended it. -/
inductive Stage (me : Fin n) (node : Node n Id α) : Prop
  | unheard : node.heard = false → node.sent = false → node.finished = false →
      (∀ role, node.pcs role = .idle) → Stage me node
  | store : node.heard = true → node.sent = false → node.finished = false →
      node.pcs (opener me) = .donesStore → (∀ role, role ≠ opener me → node.pcs role = .idle) →
      Stage me node
  | bcast : node.heard = true → node.sent = false → node.finished = false → node.nDones = 1000 →
      node.pcs (opener me) = .donesBcast → (∀ role, role ≠ opener me → node.pcs role = .idle) →
      Stage me node
  | add : node.heard = true → node.sent = true → node.finished = false →
      node.pcs (opener me) = .donesAdd (Reduce.bcast 0 me).length →
      (∀ role, role ≠ opener me → (node.pcs role).takes = true) →
      node.nDones + node.collected.card = 1000 + node.due → Stage me node
  | release : node.heard = true → node.sent = true → node.finished = false →
      node.pcs (opener me) = .donesRelease →
      (∀ role, role ≠ opener me → (node.pcs role).takes = true) →
      node.nDones + node.collected.card = 1000 + (Reduce.bcast 0 me).length + node.due →
      Stage me node
  | waits : node.heard = true → node.sent = true → node.finished = false →
      (∀ role, (node.pcs role).takes = true) → 0 < node.nDones →
      node.nDones + node.collected.card = (Reduce.bcast 0 me).length + node.due → Stage me node
  | loop (role : Role) : node.heard = true → node.sent = true → node.finished = false →
      (node.pcs role).isLoop me = true → (∀ other, other ≠ role → node.pcs other = .idle) →
      node.collected.card = (Reduce.bcast 0 me).length → Stage me node
  | finished : node.heard = true → node.sent = true → node.finished = true →
      (∀ role, node.pcs role = .idle) →
      node.collected.card = (Reduce.bcast 0 me).length → Stage me node

omit [NeZero n] in
theorem pcs_goto (node : Node n Id α) (role other : Role) (pc : Pc Id α) :
    (node.goto role pc).pcs other = if other = role then pc else node.pcs other := by
  by_cases same : other = role <;> simp [Node.goto, same]

omit [NeZero n] in
theorem due_goto (node : Node n Id α) (role : Role) (pc : Pc Id α) :
    (node.goto role pc).due + (node.pcs role).due = node.due + pc.due := by
  cases role <;> simp only [Node.due, pcs_goto] <;> simp <;> omega

omit [NeZero n] in
theorem due_eq (node : Node n Id α) (role : Role)
    (others : ∀ other, other ≠ role → (node.pcs other).due = 0) :
    node.due = (node.pcs role).due := by
  cases role with
  | caller => rw [Node.due, others .handler (by decide), add_zero]
  | handler => rw [Node.due, others .caller (by decide), zero_add]

theorem length_bcast_le (me : Fin n) : (bcast 0 me).length ≤ 2 := by
  rw [bcast_eq]
  split
  · split
    · exact le_rfl
    · exact Nat.le_succ 1
  · exact Nat.zero_le 2

theorem Pc.due_of_takes {pc : Pc Id α} (takes : pc.takes = true) (none : pc.due = 0) :
    pc = .idle := by
  cases pc with
  | idle => rfl
  | addValues | subDones => cases none
  | _ => cases takes

omit [NeZero n] in
theorem goto_self (node : Node n Id α) (role : Role) (pc : Pc Id α) :
    (node.goto role pc).pcs role = pc :=
  Function.update_self ..

omit [NeZero n] in
theorem goto_other {other : Role} (different : other ≠ role) (node : Node n Id α)
    (pc : Pc Id α) : (node.goto role pc).pcs other = node.pcs other :=
  Function.update_of_ne different ..

namespace Stage

theorem hear (stage : Stage me node) (unheard : node.heard = false) :
    Stage me { node.goto (opener me) .donesStore with heard := true } := by
  cases stage with
  | unheard _ unsent unfinished idle =>
      exact .store rfl unsent unfinished (goto_self ..) fun other different =>
        (goto_other different node _).trans (idle other)
  | _ => simp_all

theorem of_store (stage : Stage me node) (isPc : node.pcs role = .donesStore) :
    role = opener me ∧ node.heard = true ∧ node.sent = false ∧ node.finished = false ∧
      ∀ other, other ≠ role → node.pcs other = .idle := by
  cases stage <;> grind [Pc.takes, Pc.isLoop]

theorem of_bcast (stage : Stage me node) (isPc : node.pcs role = .donesBcast) :
    role = opener me ∧ node.heard = true ∧ node.sent = false ∧ node.finished = false ∧
      node.nDones = 1000 ∧ ∀ other, other ≠ role → node.pcs other = .idle := by
  cases stage <;> grind [Pc.takes, Pc.isLoop]

theorem of_add (stage : Stage me node) {sent : Nat} (isPc : node.pcs role = .donesAdd sent) :
    role = opener me ∧ sent = (Reduce.bcast 0 me).length ∧ node.heard = true ∧
      node.sent = true ∧ node.finished = false ∧
      (∀ other, other ≠ role → (node.pcs other).takes = true) ∧
      node.nDones + node.collected.card = 1000 + node.due := by
  cases stage <;> grind [Pc.takes, Pc.isLoop]

theorem of_release (stage : Stage me node) (isPc : node.pcs role = .donesRelease) :
    role = opener me ∧ node.heard = true ∧ node.sent = true ∧ node.finished = false ∧
      (∀ other, other ≠ role → (node.pcs other).takes = true) ∧
      node.nDones + node.collected.card = 1000 + (Reduce.bcast 0 me).length + node.due := by
  cases stage <;> grind [Pc.takes, Pc.isLoop]

theorem of_putAll (stage : Stage me node) {rest : List Id}
    (isPc : node.pcs role = .putAll rest) :
    me = 0 ∧ node.heard = true ∧ node.sent = true ∧ node.finished = false ∧
      (∀ other, other ≠ role → node.pcs other = .idle) ∧
      node.collected.card = (Reduce.bcast 0 me).length := by
  cases stage <;> grind [Pc.takes, Pc.isLoop]

theorem of_combineAll (stage : Stage me node) {rest : List Id} {vals : List (Id × α)}
    (isPc : node.pcs role = .combineAll rest vals) :
    me ≠ 0 ∧ node.heard = true ∧ node.sent = true ∧ node.finished = false ∧
      (∀ other, other ≠ role → node.pcs other = .idle) ∧
      node.collected.card = (Reduce.bcast 0 me).length := by
  cases stage <;> grind [Pc.takes, Pc.isLoop]

theorem sent_of_due (stage : Stage me node) (due : (node.pcs role).due = 1) :
    node.sent = true := by
  cases isPc : node.pcs role with
  | addValues | subDones => cases stage <;> grind [Pc.takes, Pc.isLoop]
  | _ =>
      rw [isPc] at due
      cases due

/-- A thread handles ALLVALUES, or is about to decrement `m_nDones`. -/
theorem retake (stage : Stage me node) {pc : Pc Id α} (takes : (node.pcs role).takes = true)
    (sent : node.sent = true)
    (busy : (node.pcs role).due = 1 ∨ node.collected.card < (Reduce.bcast 0 me).length)
    (pcs : next.pcs = (node.goto role pc).pcs) (takes' : pc.takes = true)
    (heard' : next.heard = node.heard) (sent' : next.sent = node.sent)
    (finished' : next.finished = node.finished)
    (positive : 0 < node.nDones → 0 < next.nDones)
    (balance : next.nDones + next.collected.card + (node.pcs role).due =
      node.nDones + node.collected.card + pc.due) : Stage me next := by
  have due : next.due + (node.pcs role).due = node.due + pc.due := by
    rw [Node.due, pcs]
    exact due_goto node role pc
  have isTaking (other : Role) (before : (node.pcs other).takes = true) :
      (next.pcs other).takes = true := by
    rw [pcs, pcs_goto]
    split
    · exact takes'
    · exact before
  have same (other : Role) (untaking : (node.pcs other).takes = false) :
      next.pcs other = node.pcs other := by
    rw [pcs, pcs_goto, if_neg]
    rintro rfl
    exact Bool.false_ne_true (untaking.symm.trans takes)
  cases stage with
  | unheard _ unsent => exact absurd (sent.symm.trans unsent) (by decide)
  | store _ unsent => exact absurd (sent.symm.trans unsent) (by decide)
  | bcast _ unsent => exact absurd (sent.symm.trans unsent) (by decide)
  | add heard sent unfinished isPc others total =>
      refine .add (heard'.trans heard) (sent'.trans sent) (finished'.trans unfinished) ?_
        (fun other different => isTaking other (others other different)) (by omega)
      rw [same _ (by rw [isPc]; rfl), isPc]
  | release heard sent unfinished isPc others total =>
      refine .release (heard'.trans heard) (sent'.trans sent) (finished'.trans unfinished) ?_
        (fun other different => isTaking other (others other different)) (by omega)
      rw [same _ (by rw [isPc]; rfl), isPc]
  | waits heard sent unfinished all some total =>
      exact .waits (heard'.trans heard) (sent'.trans sent) (finished'.trans unfinished)
        (fun other => isTaking other (all other)) (positive some) (by omega)
  | loop other _ _ _ isLoop others all =>
      have idle : node.pcs role = .idle := by
        refine others role ?_
        rintro rfl
        cases isPc : node.pcs role <;> rw [isPc] at isLoop takes <;> simp_all [Pc.isLoop, Pc.takes]
      rw [idle] at busy
      rcases busy with impossible | fewer
      · cases impossible
      · omega
  | finished _ _ _ idle all =>
      rw [idle role] at busy
      rcases busy with impossible | fewer
      · cases impossible
      · omega

/-- The last decrement: no other thread takes part any more. -/
theorem of_last (stage : Stage me node) (isPc : node.pcs role = .subDones)
    (isLast : node.nDones = 1)
    (room : node.collected.card ≤ (Reduce.bcast 0 me).length) :
    node.heard = true ∧ node.sent = true ∧ node.finished = false ∧
      (∀ other, other ≠ role → node.pcs other = .idle) ∧
      node.collected.card = (Reduce.bcast 0 me).length := by
  have few := length_bcast_le me
  have one : node.due + (Pc.idle : Pc Id α).due =
      (node.goto role .idle).due + (node.pcs role).due := (due_goto node role .idle).symm
  rw [isPc] at one
  change node.due + 0 = _ + 1 at one
  cases stage with
  | waits heard sent unfinished takes _ total =>
      have none : (node.goto role .idle).due = 0 := by omega
      refine ⟨heard, sent, unfinished, fun other different => ?_, by omega⟩
      refine Pc.due_of_takes (takes other) ?_
      rw [← goto_other different node .idle]
      rw [Node.due] at none
      cases other <;> omega
  | add | release => omega
  | _ => grind [Pc.isLoop]

theorem moved {messages : List (Fin n × Msg Id α)} (stage : Stage me node)
    (room : node.collected.card ≤ (Reduce.bcast 0 me).length)
    (empty : node.sent = false → node.collected = ∅)
    (moved : Next me keys node role next messages) : Stage me next := by
  have few := length_bcast_le me
  cases moved with
  | donesStore isPc =>
      obtain ⟨rfl, heard, unsent, unfinished, others⟩ := stage.of_store isPc
      exact .bcast heard unsent unfinished rfl (goto_self ..) fun other different =>
        (goto_other different node _).trans (others other different)
  | donesBcast isPc =>
      obtain ⟨rfl, heard, unsent, unfinished, isBiased, others⟩ := stage.of_bcast isPc
      have due := due_goto node (opener me) (.donesAdd (Reduce.bcast 0 me).length)
      have none : node.due = 0 := by
        rw [due_eq node (opener me) fun other different => by rw [others other different]; rfl,
          isPc]
        rfl
      refine .add heard rfl unfinished (goto_self ..) (fun other different => ?_) ?_
      · exact (congrArg Pc.takes ((goto_other different node _).trans (others other different)))
      · change node.nDones + (node.collected.card : Int) = 1000 + ((node.goto _ _).due : Int)
        rw [isPc, none] at due
        change (node.goto _ _).due = 0 at due
        rw [isBiased, empty unsent, Finset.card_empty, due]
  | @donesAdd sent isPc =>
      obtain ⟨rfl, rfl, heard, isSent, unfinished, others, total⟩ := stage.of_add isPc
      have due := due_goto node (opener me) .donesRelease
      rw [isPc] at due
      change (node.goto _ _).due + 0 = node.due + 0 at due
      refine .release heard isSent unfinished (goto_self ..) (fun other different => ?_) ?_
      · rw [← others other different]
        exact congrArg Pc.takes (goto_other different node _)
      · change node.nDones + _ + (node.collected.card : Int) = _ + ((node.goto _ _).due : Int)
        omega
  | donesRelease isPc =>
      obtain ⟨rfl, heard, isSent, unfinished, others, total⟩ := stage.of_release isPc
      have due := due_goto node (opener me) .subDones
      rw [isPc] at due
      change (node.goto _ _).due + 0 = node.due + 1 at due
      refine .waits heard isSent unfinished (fun other => ?_) ?_ ?_
      · change ((node.goto _ _).pcs other).takes = true
        rw [pcs_goto]
        split
        · rfl
        · rename_i different
          exact others other different
      · change 0 < node.nDones - 999
        omega
      · change node.nDones - 999 + (node.collected.card : Int) = _ + ((node.goto _ _).due : Int)
        omega
  | added isPc =>
      exact stage.retake (by rw [isPc]; rfl) (stage.sent_of_due (by rw [isPc]; rfl))
        (.inl (by rw [isPc]; rfl)) rfl rfl rfl rfl rfl id (by rw [isPc]; rfl)
  | subDones isPc notLast =>
      refine stage.retake (by rw [isPc]; rfl) (stage.sent_of_due (by rw [isPc]; rfl))
        (.inl (by rw [isPc]; rfl)) rfl rfl rfl rfl rfl ?_ ?_
      · intro positive
        change 0 < node.nDones - 1
        omega
      · rw [isPc]
        change node.nDones - 1 + (node.collected.card : Int) + 1 = _ + 0
        omega
  | last isPc isLast =>
      obtain ⟨heard, isSent, unfinished, others, all⟩ := stage.of_last isPc isLast room
      refine .loop role heard isSent unfinished ?_ (fun other different => ?_) all
      · change Pc.isLoop me ((node.goto role _).pcs role) = true
        rw [goto_self, sendOrPutAll]
        split <;> simp_all [Pc.isLoop]
      · exact (goto_other different node _).trans (others other different)
  | put isPc =>
      obtain ⟨-, heard, isSent, -, others, all⟩ := stage.of_putAll isPc
      refine .finished heard isSent rfl (fun other => ?_) all
      change (node.goto role .idle).pcs other = .idle
      rw [pcs_goto]
      split
      · rfl
      · rename_i different
        exact others other different
  | send isPc =>
      obtain ⟨-, heard, isSent, -, others, all⟩ := stage.of_combineAll isPc
      refine .finished heard isSent rfl (fun other => ?_) all
      change (node.goto role .idle).pcs other = .idle
      rw [pcs_goto]
      split
      · rfl
      · rename_i different
        exact others other different

end Stage

end Stages

section Controls

variable [NeZero n] {nodes : Fin n → Node n Id α} {chan : Channels (Fin n) (Msg Id α)}
  {pid : Fin n} {node : Node n Id α} {role : Role}

def Msg.isDone : Msg Id α → Bool
  | allDone => true
  | allValues _ => false

def wave (nodes : Fin n → Node n Id α) : Wave (Fin n) where
  heard p := (nodes p).heard
  sent p := (nodes p).sent
  replied p := (nodes p).finished && decide (p ≠ 0)
  collected p := (nodes p).collected

/-- The ALLDONE and the ALLVALUES which are on their way to and from a process. -/
def down (chan : Channels (Fin n) (Msg Id α)) (q : Fin n) : Nat :=
  (chan (myParentForRoot 0 q) q).countP Msg.isDone

def up (chan : Channels (Fin n) (Msg Id α)) (q : Fin n) : Nat :=
  (chan q (myParentForRoot 0 q)).countP fun message => !message.isDone

def Msg.Routed (nodes : Fin n → Node n Id α) (i j : Fin n) : Msg Id α → Prop
  | allDone => j ≠ 0 ∧ myParentForRoot 0 j = i
  | allValues vals => i ≠ 0 ∧ myParentForRoot 0 i = j ∧ (nodes i).vals = vals

structure Control (nodes : Fin n → Node n Id α) (chan : Channels (Fin n) (Msg Id α)) : Prop where
  stage : ∀ pid, Stage pid (nodes pid)
  sound : Sound (tree 0) (wave nodes) (down chan) (up chan)
  routed : ∀ i j message, message ∈ chan i j → message.Routed nodes i j

theorem wave_update (nodes : Fin n → Node n Id α) (pid : Fin n) (node : Node n Id α) :
    wave (Function.update nodes pid node) =
      { heard := Function.update (wave nodes).heard pid node.heard
        sent := Function.update (wave nodes).sent pid node.sent
        replied := Function.update (wave nodes).replied pid (node.finished && decide (pid ≠ 0))
        collected := Function.update (wave nodes).collected pid node.collected } := by
  have at_ {β : Type} (field : Fin n → Node n Id α → β) :
      (fun p => field p (Function.update nodes pid node p)) =
        Function.update (fun p => field p (nodes p)) pid (field pid node) := by
    funext p
    by_cases same : p = pid
    · subst same
      simp
    · simp [same]
  simp only [wave, at_ fun _ node => node.heard, at_ fun _ node => node.sent,
    at_ fun _ node => node.collected, at_ fun p node => node.finished && decide (p ≠ 0)]

omit [NeZero n] in
theorem countP_setQueue {i j source target : Fin n} {message : Msg Id α}
    {rest : List (Msg Id α)} (head : chan source target = message :: rest)
    (counts : Msg Id α → Bool) :
    (chan i j).countP counts = (chan.setQueue source target rest i j).countP counts +
      if (i = source ∧ j = target) ∧ counts message = true then 1 else 0 := by
  by_cases same : i = source ∧ j = target
  · obtain ⟨rfl, rfl⟩ := same
    rw [head, Channels.setQueue_same, List.countP_cons]
    simp
  · rw [Channels.setQueue_other _ _ same, if_neg fun both => same both.1, add_zero]

namespace Control

variable (control : Control nodes chan)

include control

theorem collected_le (pid : Fin n) :
    (nodes pid).collected.card ≤ (bcast 0 pid).length := by
  rw [← List.toFinset_card_of_nodup (nodup_bcast 0 pid)]
  exact Finset.card_le_card (control.sound.collected pid)

theorem children_of_card (all : (nodes pid).collected.card = (bcast 0 pid).length) :
    (nodes pid).collected = (tree 0).children pid :=
  Finset.eq_of_subset_of_card_le (control.sound.collected pid)
    ((List.toFinset_card_of_nodup (nodup_bcast 0 pid)).trans all.symm).le

theorem routed_update {i j : Fin n} {message : Msg Id α} (listed : message ∈ chan i j)
    (vals : node.vals = (nodes pid).vals) :
    message.Routed (Function.update nodes pid node) i j := by
  have routed := control.routed i j message listed
  cases message with
  | allDone => exact routed
  | allValues values =>
      refine ⟨routed.1, routed.2.1, ?_⟩
      by_cases same : i = pid
      · subst same
        rw [Function.update_self, vals]
        exact routed.2.2
      · rw [Function.update_of_ne same]
        exact routed.2.2

theorem stage_update (stage : Stage pid node) (p : Fin n) :
    Stage p (Function.update nodes pid node p) := by
  by_cases same : p = pid
  · subst same
    rwa [Function.update_self]
  · rw [Function.update_of_ne same]
    exact control.stage p

/-- A step which neither sends nor receives. -/
theorem keep (stage : Stage pid node) (heard : node.heard = (nodes pid).heard)
    (sent : node.sent = (nodes pid).sent)
    (finished : node.finished = (nodes pid).finished ∨ pid = 0)
    (collected : node.collected = (nodes pid).collected)
    (vals : node.vals = (nodes pid).vals) : Control (Function.update nodes pid node) chan := by
  have replied : (node.finished && decide (pid ≠ 0)) = (wave nodes).replied pid := by
    rcases finished with same | rfl
    · rw [same]
      rfl
    · simp [wave]
  refine ⟨control.stage_update stage, ?_, fun i j message listed =>
    control.routed_update listed vals⟩
  rw [wave_update, heard, sent, collected, replied]
  simpa [wave] using control.sound

theorem moved_stage (keys : List Id) {messages : List (Fin n × Msg Id α)}
    (moved : Next pid keys (nodes pid) role node messages) : Stage pid node := by
  refine (control.stage pid).moved (control.collected_le pid) (fun unsent => ?_) moved
  refine Finset.eq_empty_of_forall_notMem fun source collected => ?_
  obtain ⟨notRoot, rfl⟩ :=
    ((tree 0).mem_children pid source).mp (control.sound.collected pid collected)
  have replied := control.sound.replied_of_collected notRoot collected
  have heard := control.sound.sent source (control.sound.replied source replied).2.1
  have down := control.sound.down source notRoot
  have none : (wave nodes).sent ((tree 0).parent source) = false := unsent
  rw [heard, none, Bool.toNat_true, Bool.toNat_false] at down
  omega

/-- `flush` or the handler of ALLDONE begins. -/
theorem hear {chan' : Channels (Fin n) (Msg Id α)} (unheard : (nodes pid).heard = false)
    (sound : Sound (tree 0)
      { wave nodes with heard := Function.update (wave nodes).heard pid true } (down chan')
      (up chan'))
    (old : ∀ i j message, message ∈ chan' i j → message ∈ chan i j) :
    Control (Function.update nodes pid
      { (nodes pid).goto (opener pid) .donesStore with heard := true }) chan' := by
  have stage : Stage pid { (nodes pid).goto (opener pid) .donesStore with heard := true } :=
    (control.stage pid).hear unheard
  refine ⟨control.stage_update stage, ?_, fun i j message listed =>
    control.routed_update (old i j message listed) rfl⟩
  rw [wave_update]
  simpa [wave, Node.goto] using sound

theorem flush (unheard : (nodes 0).heard = false) :
    Control (Function.update nodes 0
      { (nodes 0).goto .caller .donesStore with heard := true }) chan :=
  control.hear unheard (Sound.start control.sound) fun _ _ _ => id

theorem of_done {source : Fin n} (listed : .allDone ∈ chan source pid) :
    pid ≠ 0 ∧ myParentForRoot 0 pid = source ∧ (nodes pid).heard = false := by
  obtain ⟨notRoot, isParent⟩ := control.routed source pid .allDone listed
  have pending : 0 < down chan pid := by
    rw [down, isParent, List.countP_pos_iff]
    exact ⟨_, listed, rfl⟩
  exact ⟨notRoot, isParent, (control.sound.of_down notRoot pending).1⟩

theorem receiveDone {source : Fin n} {rest : List (Msg Id α)}
    (head : chan source pid = .allDone :: rest) :
    Control (Function.update nodes pid
        { (nodes pid).goto .handler .donesStore with heard := true })
      (chan.setQueue source pid rest) := by
  obtain ⟨notRoot, isParent, unheard⟩ := control.of_done (head ▸ List.mem_cons_self)
  have here : down chan pid = down (chan.setQueue source pid rest) pid + 1 := by
    rw [down, isParent, countP_setQueue head, if_pos ⟨⟨rfl, rfl⟩, rfl⟩, down, isParent]
  have isOpener : opener pid = .handler := if_neg notRoot
  have same : up (chan.setQueue source pid rest) = up chan := by
    funext q
    rw [up, up, countP_setQueue head, if_neg fun both => Bool.false_ne_true both.2, Nat.add_zero]
  have sound := Sound.hear control.sound notRoot here fun q different _ => by
    rw [down, down, countP_setQueue head, if_neg fun both => different both.1.2, add_zero]
  rw [← same] at sound
  have heard := control.hear unheard sound fun i j message listed =>
    Channels.mem_of_mem_setQueue_tail head listed
  rwa [isOpener] at heard

theorem of_values {source : Fin n} {vals : List (Id × α)}
    (listed : .allValues vals ∈ chan source pid) :
    source ≠ 0 ∧ myParentForRoot 0 source = pid ∧ (nodes source).vals = vals ∧
      (nodes source).finished = true ∧ source ∉ (nodes pid).collected ∧
      (nodes pid).sent = true ∧ (nodes pid).collected.card < (bcast 0 pid).length := by
  obtain ⟨notRoot, rfl, isVals⟩ := control.routed source pid _ listed
  have pending : 0 < up chan source := by
    rw [up, List.countP_pos_iff]
    exact ⟨_, listed, rfl⟩
  obtain ⟨replied, uncollected, -⟩ := control.sound.of_up notRoot pending
  have isFinished : (nodes source).finished = true := (Bool.and_eq_true_iff.mp replied).1
  have heard := control.sound.sent source (control.sound.replied source replied).2.1
  have down := control.sound.down source notRoot
  have bound := Bool.toNat_le ((wave nodes).sent ((tree 0).parent source))
  rw [heard, Bool.toNat_true] at down
  refine ⟨notRoot, rfl, isVals, isFinished, uncollected, ?_, ?_⟩
  · have one : ((wave nodes).sent ((tree 0).parent source)).toNat = 1 := by omega
    exact Bool.toNat_eq_one.mp one
  · rw [← List.toFinset_card_of_nodup (nodup_bcast 0 _)]
    refine Finset.card_lt_card ((Finset.ssubset_iff_of_subset (control.sound.collected _)).mpr
      ⟨source, ((tree 0).mem_children _ source).mpr ⟨notRoot, rfl⟩, uncollected⟩)

theorem receiveValues {source : Fin n} {vals : List (Id × α)} {rest : List (Msg Id α)}
    (isPc : (nodes pid).pcs .handler = .idle)
    (head : chan source pid = .allValues vals :: rest) :
    Control (Function.update nodes pid ((nodes pid).receive source (.allValues vals)))
      (chan.setQueue source pid rest) := by
  obtain ⟨notRoot, isParent, -, -, uncollected, sent, room⟩ :=
    control.of_values (head ▸ List.mem_cons_self)
  have more := Finset.card_insert_of_notMem uncollected
  have stage : Stage pid ((nodes pid).receive source (.allValues vals)) := by
    have pcs : ((nodes pid).receive source (.allValues vals)).pcs =
        ((nodes pid).goto .handler (.addValues vals)).pcs := rfl
    refine (control.stage pid).retake (by rw [isPc]; rfl) sent (.inr room) pcs rfl rfl rfl rfl id ?_
    rw [isPc, Node.receive, more]
    change (nodes pid).nDones + ((nodes pid).collected.card + 1 : Nat) + 0 = _ + 1
    omega
  refine ⟨control.stage_update stage, ?_, fun i j message listed =>
    control.routed_update (Channels.mem_of_mem_setQueue_tail head listed) rfl⟩
  have here : up chan source = up (chan.setQueue source pid rest) source + 1 := by
    rw [up, isParent, countP_setQueue head, if_pos ⟨⟨rfl, rfl⟩, rfl⟩, up, isParent]
  have same : down (chan.setQueue source pid rest) = down chan := by
    funext q
    rw [down, down, countP_setQueue head, if_neg fun both => Bool.false_ne_true both.2,
      Nat.add_zero]
  have sound := Sound.collect control.sound notRoot here fun q different _ => by
    rw [up, up, countP_setQueue head, if_neg fun both => different both.1.1, add_zero]
  rw [wave_update, same]
  rw [show (tree 0).parent source = pid from isParent] at sound
  simpa [wave, Node.receive, Node.goto] using sound

theorem broadcast (isPc : (nodes pid).pcs role = .donesBcast) :
    Control (Function.update nodes pid
        { (nodes pid).goto role (.donesAdd (bcast 0 pid).length) with sent := true })
      (chan.send pid ((bcast 0 pid).map fun receiver => (receiver, .allDone))) := by
  obtain ⟨-, heard, unsent, -⟩ := (control.stage pid).of_bcast isPc
  have sent (i j : Fin n) : chan.send pid ((bcast 0 pid).map fun receiver =>
      (receiver, .allDone)) i j =
      if i = pid ∧ j ∈ bcast 0 pid then chan i j ++ [.allDone] else chan i j :=
    post_eq (nodup_bcast 0 pid) chan pid .allDone i j
  refine ⟨control.stage_update (control.moved_stage [] (.donesBcast isPc)), ?_,
    fun i j message listed => ?_⟩
  · rw [wave_update]
    have same : up (chan.send pid ((bcast 0 pid).map fun receiver => (receiver, .allDone))) =
        up chan := by
      funext q
      rw [up, up, sent]
      split
      · rw [List.countP_append]
        rfl
      · rfl
    have told (q : Fin n) (_ : q ≠ 0) :
        down (chan.send pid ((bcast 0 pid).map fun receiver => (receiver, .allDone))) q =
          down chan q + if q ∈ (tree 0).children pid then 1 else 0 := by
      have isChild : q ∈ (tree 0).children pid ↔ q ∈ bcast 0 pid := List.mem_toFinset
      rw [down, down, sent]
      by_cases isReceiver : q ∈ bcast 0 pid
      · rw [if_pos ⟨(mem_bcast.mp isReceiver).2, isReceiver⟩, if_pos (isChild.mpr isReceiver),
          List.countP_append]
        rfl
      · rw [if_neg fun both => isReceiver both.2, if_neg fun isMember =>
          isReceiver (isChild.mp isMember), Nat.add_zero]
    have sound := Sound.forward control.sound heard unsent told
    rw [same]
    simpa [wave, Node.goto] using sound
  · rcases Channels.mem_send.mp listed with old | ⟨rfl, addressed⟩
    · exact control.routed_update old rfl
    · obtain ⟨receiver, isReceiver, isMessage⟩ := List.mem_map.mp addressed
      cases isMessage
      exact mem_bcast.mp isReceiver

theorem reply {vals : List (Id × α)} (isPc : (nodes pid).pcs role = .combineAll [] vals) :
    pid ≠ 0 ∧ Control (Function.update nodes pid
        { (nodes pid).goto role .idle with finished := true, vals := vals })
      (chan.send pid [(myParentForRoot 0 pid, .allValues vals)]) := by
  obtain ⟨notRoot, -, isSent, unfinished, -, all⟩ := (control.stage pid).of_combineAll isPc
  have unreplied : (wave nodes).replied pid = false := by
    simp [wave, unfinished]
  have none : up chan pid = 0 := by
    have equation := control.sound.up pid notRoot
    rw [unreplied, Bool.toNat_false] at equation
    omega
  refine ⟨notRoot, control.stage_update (control.moved_stage [] (.send isPc)), ?_,
    fun i j message listed => ?_⟩
  · rw [wave_update]
    have same : down (chan.send pid [(myParentForRoot 0 pid, .allValues vals)]) = down chan := by
      funext q
      rw [down, down, send_singleton]
      split
      · rw [List.countP_append]
        rfl
      · rfl
    have here : up (chan.send pid [(myParentForRoot 0 pid, .allValues vals)]) pid =
        up chan pid + 1 := by
      rw [up, up, send_singleton, if_pos ⟨rfl, rfl⟩, List.countP_append]
      rfl
    have sound := Sound.reply control.sound notRoot isSent unreplied
      (control.children_of_card all) here fun q different _ => by
        rw [up, up, send_singleton, if_neg fun both => different both.1]
    rw [same]
    simpa [wave, Node.goto, notRoot] using sound
  · rcases Channels.mem_send.mp listed with old | ⟨rfl, addressed⟩
    · by_cases isSender : i = pid
      · subst isSender
        cases message with
        | allDone => exact control.routed i j _ old
        | allValues values =>
            have routed := control.routed i j _ old
            rw [up, List.countP_eq_zero] at none
            exact absurd rfl (none _ (routed.2.1 ▸ old))
      · have routed := control.routed i j message old
        cases message with
        | allDone => exact routed
        | allValues values =>
            refine ⟨routed.1, routed.2.1, ?_⟩
            rw [Function.update_of_ne isSender]
            exact routed.2.2
    · cases List.mem_singleton.mp addressed
      refine ⟨notRoot, rfl, ?_⟩
      rw [Function.update_self]

theorem moved {keys : List Id} {messages : List (Fin n × Msg Id α)}
    (moved : Next pid keys (nodes pid) role node messages) :
    Control (Function.update nodes pid node) (chan.send pid messages) := by
  have stage := control.moved_stage keys moved
  cases moved with
  | donesBcast isPc => exact control.broadcast isPc
  | send isPc => exact (control.reply isPc).2
  | put isPc =>
      rw [Channels.send_nil]
      exact control.keep stage rfl rfl (.inr ((control.stage pid).of_putAll isPc).1) rfl rfl
  | _ =>
      rw [Channels.send_nil]
      exact control.keep stage rfl rfl (.inl rfl) rfl rfl

/-- The threads handle ALLVALUES, or visit the reductions. -/
theorem visit {pc : Pc Id α}
    (goesOn : ((nodes pid).pcs role).due = 1 ∧ pc.takes = true ∧ pc.due = 1 ∨
      (∃ rest rest', (nodes pid).pcs role = .putAll rest ∧ pc = .putAll rest') ∨
      ∃ rest vals rest' vals', (nodes pid).pcs role = .combineAll rest vals ∧
        pc = .combineAll rest' vals') :
    Control (Function.update nodes pid ((nodes pid).goto role pc)) chan := by
  refine control.keep ?_ rfl rfl (.inl rfl) rfl rfl
  have stage := control.stage pid
  rcases goesOn with ⟨due, takes, due'⟩ | ⟨rest, rest', isPc, rfl⟩ |
    ⟨rest, vals, rest', vals', isPc, rfl⟩
  · have wasTaking : ((nodes pid).pcs role).takes = true := by
      cases isPc : (nodes pid).pcs role with
      | addValues | subDones => rfl
      | _ =>
          rw [isPc] at due
          cases due
    refine stage.retake wasTaking (stage.sent_of_due due) (.inl due) rfl takes rfl rfl rfl id ?_
    rw [due, due']
    rfl
  · obtain ⟨isRoot, heard, sent, unfinished, others, all⟩ := stage.of_putAll isPc
    refine .loop role heard sent unfinished ?_ (fun other different => ?_) all
    · rw [goto_self]
      exact decide_eq_true isRoot
    · rw [goto_other different]
      exact others other different
  · obtain ⟨notRoot, heard, sent, unfinished, others, all⟩ := stage.of_combineAll isPc
    refine .loop role heard sent unfinished ?_ (fun other different => ?_) all
    · rw [goto_self]
      exact decide_eq_true notRoot
    · rw [goto_other different]
      exact others other different

/-- When nothing is left to be done, all processes have ended their loops. -/
theorem complete (idle : ∀ pid role, (nodes pid).pcs role = .idle) (empty : chan.Empty)
    (heard : (nodes 0).heard = true) (q : Fin n) :
    (nodes q).finished = true ∧ (nodes q).collected = (tree 0).children q := by
  have due (pid : Fin n) : (nodes pid).due = 0 := by
    rw [Node.due, idle, idle]
    rfl
  have isOpen (pid : Fin n) (isHeard : (nodes pid).heard = true) :
      (nodes pid).sent = true ∧ ((nodes pid).finished = true ∨
        (nodes pid).collected.card < (bcast 0 pid).length) := by
    have none := due pid
    have stage := control.stage pid
    cases stage with
    | unheard unheard => exact absurd (isHeard.symm.trans unheard) (by decide)
    | waits _ sent _ _ positive total => exact ⟨sent, .inr (by omega)⟩
    | finished _ sent isFinished => exact ⟨sent, .inl isFinished⟩
    | loop role _ _ _ isLoop =>
        rw [idle] at isLoop
        cases isLoop
    | store _ _ _ isPc | bcast _ _ _ _ isPc | add _ _ _ isPc | release _ _ _ isPc =>
        rw [idle] at isPc
        cases isPc
  have complete := control.sound.complete (isOpen 0 heard).1
    (fun q _ => by rw [down, empty]; rfl) (fun q _ => by rw [up, empty]; rfl)
    fun pid notRoot isHeard unreplied => by
      obtain ⟨sent, isFinished | fewer⟩ := isOpen pid isHeard
      · simp [wave, isFinished] at unreplied
        exact absurd unreplied notRoot
      · refine ⟨sent, fun all => ?_⟩
        have card : (nodes pid).collected.card = (bcast 0 pid).length := by
          rw [← List.toFinset_card_of_nodup (nodup_bcast 0 pid)]
          exact congrArg Finset.card all
        omega
  obtain ⟨isHeard, -, all⟩ := complete q
  refine ⟨(isOpen q isHeard).2.resolve_right fun fewer => ?_, all⟩
  have card : (nodes q).collected.card = (bcast 0 q).length := by
    rw [← List.toFinset_card_of_nodup (nodup_bcast 0 q)]
    exact congrArg Finset.card all
  omega

omit control

theorem start : Control (fun _ => Node.start : Fin n → Node n Id α) fun _ _ => [] := by
  refine ⟨fun _ => .unheard rfl rfl rfl fun _ => rfl,
    ⟨fun _ _ => rfl, fun _ _ => rfl, fun _ sent => absurd sent Bool.false_ne_true,
      fun _ replied => absurd replied Bool.false_ne_true, fun _ => Finset.empty_subset _⟩,
    fun _ _ _ listed => absurd listed List.not_mem_nil⟩

end Control

section Runs

variable [DecidableEq Id] [DecidableEq Thread] [Mul α] [One α] [Inhabited α] {owner : Id → Fin n}
  {count : Id → Int} {s after : State n Id Thread α} {action : Action n Id Thread α}

theorem Control.step (control : Control s.node s.chan) (calls : Calls s action)
    (taken : Taken owner count s action after) : Control after.node after.chan := by
  cases taken with
  | @reduce id action red isRed =>
      cases action <;> exact control
  | flush => exact control.flush calls.1
  | @receive source target message rest isPc head =>
      cases message with
      | allDone => exact control.receiveDone head
      | allValues vals => exact control.receiveValues isPc head
  | run moved => exact control.moved moved
  | add isPc => exact control.visit (.inl ⟨by rw [isPc]; rfl, rfl, rfl⟩)
  | put isPc => exact control.visit (.inr (.inl ⟨_, _, isPc, rfl⟩))
  | combine isPc => exact control.visit (.inr (.inr ⟨_, _, _, _, isPc, rfl⟩))

theorem control_of_reached {allowed : State n Id Thread α → Action n Id Thread α → Prop}
    (calls : ∀ s action, allowed s action → Calls s action)
    (reached : Reached (system owner count) allowed s) : Control s.node s.chan := by
  refine reached.invariant (fun s => Control s.node s.chan) ?_ ?_
  · rintro state rfl
    exact .start
  · intro state action next _ control allows stepped
    exact control.step (calls state action allows) (taken_of_step stepped)

end Runs

end Controls

end CnC.Reduce.Flush
