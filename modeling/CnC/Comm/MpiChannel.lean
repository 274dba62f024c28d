import Mathlib.Data.List.Infix
import Mathlib.Logic.Function.Basic
import Mathlib.Tactic
import CnC.Comm.Buffer
import CnC.Library.Transition

/-!
# The channel over MPI

A small message is sent as one `FIRST_MSG`.  The body of a large one follows the header as a
`SECOND_MSG`, which the receiver recognises by the number of bytes it has got.  MPI keeps the
order of the messages with one tag from one sender, and the receiver takes a `FIRST_MSG` from
any of them.
-/

namespace CnC.Comm

open Transition

universe u

variable {Pid : Type u}

def headerSize : Nat := 8

def intMax : Nat := 2 ^ 31 - 1

/-- The conversion of a size to `int`. -/
@[irreducible]
def toInt (n : Nat) : Int :=
  Int.bmod n (2 ^ 32)

inductive FirstMsg where
  | combined (body : Bytes)
  | headerOnly (bodySize : Nat)
  deriving DecidableEq

namespace FirstMsg

def bodySize : FirstMsg → Nat
  | combined body => body.length
  | headerOnly bodySize => bodySize

def payload : FirstMsg → Bytes
  | combined body => body
  | headerOnly _ => []

/-- What `MPI_Get_count` tells. -/
def count (msg : FirstMsg) : Nat :=
  headerSize + msg.payload.length

def isSplit (msg : FirstMsg) : Bool :=
  decide (msg.bodySize ≠ 0) && decide (msg.count = headerSize)

end FirstMsg

/-- `half` is the message whose header was sent but not yet its body.  `posted` is the number of
bytes of the last `MPI_Irecv` for a `FIRST_MSG`, which has completed if `waitForAnyClient` waits
for the body from a sender.  A message without a body is received as the empty one. -/
structure State (Pid : Type u) where
  sent : Pid → List Bytes
  half : Pid → Option Bytes
  first : Pid → List FirstMsg
  second : Pid → List Bytes
  ser1 : Buffer
  ser2 : Buffer
  posted : Int
  waiting : Option Pid
  received : List (Pid × Bytes)

inductive Action (Pid : Type u) where
  | sendBytes (pid : Pid) (body : Bytes)
  | sendSecond (pid : Pid)
  | matchFirst (pid : Pid)
  | matchSecond

def State.initial : State Pid where
  sent _ := []
  half _ := none
  first _ := []
  second _ := []
  ser1 := .initial
  ser2 := .initial
  posted := toInt Buffer.initial.capacity
  waiting := none
  received := []

/-- The end of `waitForAnyClient`: the buffers are exchanged and the next receive is posted. -/
def finish (s : State Pid) (pid : Pid) (body : Bytes) : State Pid :=
  let ser1 := s.ser2.reset s.ser2.addSize
  { s with
    ser1 := ser1
    ser2 := s.ser1
    posted := toInt ser1.capacity
    waiting := none
    received := s.received ++ [(pid, body)] }

section Finish

variable (s : State Pid) (pid : Pid) (body : Bytes)

@[simp]
theorem finish_ser1 : (finish s pid body).ser1 = s.ser2.reset s.ser2.addSize := rfl

@[simp]
theorem finish_ser2 : (finish s pid body).ser2 = s.ser1 := rfl

@[simp]
theorem finish_posted :
    (finish s pid body).posted = toInt (s.ser2.reset s.ser2.addSize).capacity := rfl

@[simp]
theorem finish_sent : (finish s pid body).sent = s.sent := rfl

@[simp]
theorem finish_half : (finish s pid body).half = s.half := rfl

@[simp]
theorem finish_first : (finish s pid body).first = s.first := rfl

@[simp]
theorem finish_second : (finish s pid body).second = s.second := rfl

@[simp]
theorem finish_waiting : (finish s pid body).waiting = none := rfl

@[simp]
theorem finish_received : (finish s pid body).received = s.received ++ [(pid, body)] := rfl

end Finish

variable [DecidableEq Pid]

/-- `sendBytes`; the process aborts if there are more than `INT_MAX` bytes. -/
def sendBytes (s : State Pid) (pid : Pid) (body : Bytes) : Option (State Pid) :=
  if (s.half pid).isSome || headerSize + body.length > intMax then none
  else
    let s := { s with sent := Function.update s.sent pid (s.sent pid ++ [body]) }
    if headerSize + body.length < Buffer.buffSize then
      some { s with first := Function.update s.first pid (s.first pid ++ [.combined body]) }
    else
      some { s with
        first := Function.update s.first pid (s.first pid ++ [.headerOnly body.length])
        half := Function.update s.half pid (some body) }

/-- `waitForAnyClient` after `MPI_Wait`, up to the receive of the body. -/
def afterFirst (s : State Pid) (pid : Pid) (msg : FirstMsg) : State Pid :=
  let s := { s with ser1 := s.ser1.receive msg.bodySize msg.payload }
  let bodySize := s.ser1.sizeField
  if bodySize ≠ 0 then
    let s := { s with ser1 := s.ser1.acquire bodySize }
    if msg.count = headerSize then { s with waiting := some pid }
    else finish s pid s.ser1.bodyBytes
  else finish s pid []

/-- MPI fails if the number of bytes is negative or if the message is longer. -/
def matchFirst (s : State Pid) (pid : Pid) : Option (State Pid) :=
  match s.waiting, s.first pid with
  | none, msg :: rest =>
      if s.posted < 0 ∨ s.posted < msg.count then none
      else some (afterFirst { s with first := Function.update s.first pid rest } pid msg)
  | _, _ => none

def matchSecond (s : State Pid) : Option (State Pid) :=
  s.waiting.bind fun pid =>
    match s.second pid with
    | [] => none
    | body :: rest =>
        let s := { s with
          second := Function.update s.second pid rest
          ser1 := s.ser1.receive s.ser1.sizeField body }
        some (finish s pid s.ser1.bodyBytes)

def step (s : State Pid) : Action Pid → Option (State Pid)
  | .sendBytes pid body => sendBytes s pid body
  | .sendSecond pid =>
      (s.half pid).map fun body =>
        { s with
          half := Function.update s.half pid none
          second := Function.update s.second pid (s.second pid ++ [body]) }
  | .matchFirst pid => matchFirst s pid
  | .matchSecond => matchSecond s

def system : System (State Pid) (Action Pid) where
  Initial s := s = .initial
  step := step

/-- The messages of one sender, in the order in which they were received. -/
def State.receivedFrom (s : State Pid) (pid : Pid) : List Bytes :=
  (s.received.filter fun entry => entry.1 = pid).map Prod.snd

/-- What the channel promises. -/
structure Correct (s : State Pid) : Prop where
  nonneg : s.waiting = none → 0 ≤ s.posted
  inside : s.waiting = none → s.ser1.header + s.posted ≤ s.ser1.size
  enough : s.waiting = none → ∀ pid, ∀ msg ∈ s.first pid, msg.count ≤ s.posted
  told : ∀ pid, ∀ msg ∈ s.first pid, msg.isSplit = true ↔ ∃ n, msg = .headerOnly n
  inOrder : ∀ pid, s.receivedFrom pid <+: s.sent pid
  complete : ∀ pid, s.first pid = [] → s.waiting ≠ some pid → s.receivedFrom pid = s.sent pid
  receives : ∀ pid, s.waiting = none → s.first pid ≠ [] → (step s (.matchFirst pid)).isSome = true
  continues : ∀ pid, s.waiting = some pid →
    (step s .matchSecond).isSome = true ∨ (step s (.sendSecond pid)).isSome = true

/-- A buffer for such a body has a size which fits into an `int`. -/
def Small (body : Bytes) : Prop :=
  body.length + 16 ≤ 2 ^ 31

theorem buffSize_eq : Buffer.buffSize = 8388592 := rfl

/-- The first messages and the bodies of the large ones belong to these messages. -/
inductive Framed : List FirstMsg → List Bytes → List Bytes → Prop
  | nil : Framed [] [] []
  | combined {body firsts bodies rest} : headerSize + body.length < Buffer.buffSize →
      Framed firsts bodies rest → Framed (.combined body :: firsts) bodies (body :: rest)
  | split {body firsts bodies rest} : Buffer.buffSize ≤ headerSize + body.length →
      headerSize + body.length ≤ intMax → Framed firsts bodies rest →
      Framed (.headerOnly body.length :: firsts) (body :: bodies) (body :: rest)

section Framed

variable {firsts : List FirstMsg} {bodies messages : List Bytes} {body : Bytes} {msg : FirstMsg}

theorem Framed.snoc_combined (framed : Framed firsts bodies messages)
    (small : headerSize + body.length < Buffer.buffSize) :
    Framed (firsts ++ [.combined body]) bodies (messages ++ [body]) := by
  induction framed with
  | nil => exact .combined small .nil
  | combined isSmall _ inductionHypothesis => exact .combined isSmall inductionHypothesis
  | split isLarge bounded _ inductionHypothesis => exact .split isLarge bounded inductionHypothesis

theorem Framed.snoc_split (framed : Framed firsts bodies messages)
    (large : Buffer.buffSize ≤ headerSize + body.length)
    (bounded : headerSize + body.length ≤ intMax) :
    Framed (firsts ++ [.headerOnly body.length]) (bodies ++ [body]) (messages ++ [body]) := by
  induction framed with
  | nil => exact .split large bounded .nil
  | combined isSmall _ inductionHypothesis => exact .combined isSmall inductionHypothesis
  | split isLarge isBounded _ inductionHypothesis =>
      exact .split isLarge isBounded inductionHypothesis

/-- The receiver tells the two kinds of messages apart, and a buffer of the smallest size is
large enough for both. -/
theorem Framed.told (framed : Framed firsts bodies messages) (member : msg ∈ firsts) :
    (msg.isSplit = true ↔ ∃ n, msg = .headerOnly n) ∧ msg.count + 8 ≤ 2 ^ 23 := by
  induction framed with
  | nil => cases member
  | @combined body _ _ _ isSmall _ inductionHypothesis =>
      rcases List.mem_cons.mp member with rfl | later
      · rw [buffSize_eq, headerSize] at isSmall
        refine ⟨iff_of_false ?_ nofun, ?_⟩
        · simp [FirstMsg.isSplit, FirstMsg.bodySize, FirstMsg.count, FirstMsg.payload]
        · simp only [FirstMsg.count, FirstMsg.payload, headerSize]
          omega
      · exact inductionHypothesis later
  | @split body _ _ _ isLarge _ _ inductionHypothesis =>
      rcases List.mem_cons.mp member with rfl | later
      · rw [buffSize_eq, headerSize] at isLarge
        have nonempty : body.length ≠ 0 := by omega
        refine ⟨iff_of_true ?_ ⟨_, rfl⟩, ?_⟩
        · simpa [FirstMsg.isSplit, FirstMsg.bodySize, FirstMsg.count, FirstMsg.payload]
            using nonempty
        · simp [FirstMsg.count, FirstMsg.payload, headerSize]
      · exact inductionHypothesis later

theorem Framed.split_inv {n : Nat}
    (framed : Framed (.headerOnly n :: firsts) (body :: bodies) messages) :
    n = body.length ∧ ∃ rest, messages = body :: rest ∧ Framed firsts bodies rest := by
  cases framed with
  | split _ _ framed => exact ⟨rfl, _, rfl, framed⟩

theorem Framed.bodies_ne_nil {n : Nat} (framed : Framed (.headerOnly n :: firsts) bodies messages) :
    bodies ≠ [] := by
  cases framed with
  | split _ _ _ => exact List.cons_ne_nil _ _

theorem Framed.size_ne_zero {n : Nat} (framed : Framed (.headerOnly n :: firsts) bodies messages) :
    n ≠ 0 := by
  cases framed with
  | @split body _ _ _ isLarge _ _ =>
      rw [headerSize, buffSize_eq] at isLarge
      omega

theorem Framed.messages_nil (framed : Framed [] bodies messages) : messages = [] := by
  cases framed
  rfl

end Framed

section Buffers

variable {b : Buffer}

theorem toInt_of_lt {n : Nat} (small : n < 2 ^ 31) : toInt n = n := by
  unfold toInt
  refine Int.bmod_eq_of_le (by norm_num) ?_
  norm_num
  omega

theorem toInt_of_4GiB : toInt (2 ^ 32 - 8) = -8 := by
  unfold toInt
  norm_num [Int.bmod]

theorem toInt_capacity (valid : b.Valid) :
    (0 ≤ toInt b.capacity ↔ b.size ≤ 2 ^ 31) ∧
      (b.size ≤ 2 ^ 31 → toInt b.capacity = b.size - 8) := by
  have atLeast := valid.atLeast
  have capacity : b.capacity = b.size - 8 := by rw [Buffer.capacity, valid.header]
  rw [capacity]
  rcases valid.size_cases with small | large
  · rw [toInt_of_lt (show b.size - 8 < 2 ^ 31 by omega)]
    omega
  · rw [large, toInt_of_4GiB]
    omega

end Buffers

section Invariant

variable {s next : State Pid} {pid : Pid} {body : Bytes}

/-- The first messages of the sender, with the one whose body has still to be received. -/
def State.heads (s : State Pid) (pid : Pid) : List FirstMsg :=
  (if s.waiting = some pid then [.headerOnly s.ser1.sizeField] else []) ++ s.first pid

def State.bodies (s : State Pid) (pid : Pid) : List Bytes :=
  s.second pid ++ (s.half pid).toList

def State.Flows (s : State Pid) (pid : Pid) : Prop :=
  ∃ messages, Framed (s.heads pid) (s.bodies pid) messages ∧
    s.receivedFrom pid ++ messages = s.sent pid

/-- The buffer which is not in use was enlarged by the last message if at all. -/
structure Inv (s : State Pid) : Prop where
  flows : ∀ pid, s.Flows pid
  valid2 : s.ser2.Valid
  small2 : s.ser2.size ≤ 2 ^ 31 ↔ ∀ entry ∈ s.received.getLast?, Small entry.2
  ready : s.waiting = none → s.ser1.Ready ∧ s.posted = toInt s.ser1.capacity ∧
    (s.ser1.size ≤ 2 ^ 31 ↔ ∀ entry ∈ s.received.dropLast, Small entry.2)
  awaits : ∀ pid, s.waiting = some pid → s.ser1.Valid ∧ s.ser1.curr = 16 + s.ser1.sizeField ∧
    (s.ser1.size ≤ 2 ^ 31 ↔ s.ser1.sizeField + 16 ≤ 2 ^ 31) ∧
      ∀ entry ∈ s.received.dropLast, Small entry.2

omit [DecidableEq Pid] in
theorem forall_received_iff {received : List (Pid × Bytes)} :
    (∀ entry ∈ received, Small entry.2) ↔
      (∀ entry ∈ received.dropLast, Small entry.2) ∧
        ∀ entry ∈ received.getLast?, Small entry.2 := by
  induction received using List.reverseRecOn with
  | nil => simp
  | append_singleton before last _ => simp [or_imp, forall_and]

theorem receivedFrom_finish (s : State Pid) (pid other : Pid) (body : Bytes) :
    (finish s pid body).receivedFrom other =
      s.receivedFrom other ++ if pid = other then [body] else [] := by
  simp only [State.receivedFrom, finish, List.filter_append, List.map_append]
  split <;> simp_all

theorem heads_finish (s : State Pid) (pid other : Pid) (body : Bytes) :
    (finish s pid body).heads other = s.first other := by
  simp [State.heads]

theorem Inv.finish (valid1 : s.ser1.Valid) (small1 : s.ser1.size ≤ 2 ^ 31 ↔ Small body)
    (valid2 : s.ser2.Valid)
    (small2 : s.ser2.size ≤ 2 ^ 31 ↔ ∀ entry ∈ s.received.getLast?, Small entry.2)
    (before : ∀ entry ∈ s.received.dropLast, Small entry.2)
    (flows : ∀ other, (finish s pid body).Flows other) : Inv (finish s pid body) where
  flows := flows
  valid2 := valid1
  small2 := by
    rw [finish_ser2, small1, finish_received]
    simp
  ready _ := by
    obtain ⟨ready, sameSize⟩ := valid2.reset
    refine ⟨ready, finish_posted s pid body, ?_⟩
    rw [finish_ser1, sameSize, small2, finish_received, List.dropLast_concat, forall_received_iff]
    exact ⟨fun small => ⟨before, small⟩, And.right⟩
  awaits _ := nofun

theorem matchFirst_cases (matched : matchFirst s pid = some next) :
    s.waiting = none ∧ ∃ msg rest, s.first pid = msg :: rest ∧ 0 ≤ s.posted ∧
      next = afterFirst { s with first := Function.update s.first pid rest } pid msg := by
  unfold matchFirst at matched
  split at matched
  · rename_i msg rest idle isFirst
    split at matched
    · cases matched
    · rename_i enough
      cases matched
      exact ⟨idle, msg, rest, isFirst, by omega, rfl⟩
  · cases matched

theorem matchFirst_eq {msg : FirstMsg} {rest : List FirstMsg} (idle : s.waiting = none)
    (isFirst : s.first pid = msg :: rest) (enough : msg.count ≤ s.posted) :
    matchFirst s pid =
      some (afterFirst { s with first := Function.update s.first pid rest } pid msg) := by
  unfold matchFirst
  rw [idle, isFirst]
  exact if_neg (by omega)

omit [DecidableEq Pid] in
theorem afterFirst_combined (s : State Pid) (pid : Pid) (ready : s.ser1.Ready)
    (small : headerSize + body.length < Buffer.buffSize) :
    ∃ ser1 : Buffer, ser1.Valid ∧ ser1.size = s.ser1.size ∧
      afterFirst s pid (.combined body) = finish { s with ser1 := ser1 } pid body := by
  by_cases isEmpty : body = []
  · subst isEmpty
    exact ⟨_, ready.toValid.receive 0 [], rfl, rfl⟩
  · have atLeast := ready.atLeast
    rw [headerSize, buffSize_eq] at small
    obtain ⟨valid, sameSize, bodyBytes⟩ :=
      Buffer.receive_acquire ready (show body.length + 16 ≤ s.ser1.size by omega)
    refine ⟨_, valid, sameSize, ?_⟩
    have nonempty : body.length ≠ 0 := by simpa using isEmpty
    have notSplit : ¬ (FirstMsg.combined body).count = headerSize := by
      simpa [FirstMsg.count, FirstMsg.payload] using isEmpty
    refine (if_pos nonempty).trans ((if_neg notSplit).trans ?_)
    exact congrArg (finish _ pid) bodyBytes

omit [DecidableEq Pid] in
theorem afterFirst_split {n : Nat} (nonempty : n ≠ 0) :
    afterFirst s pid (.headerOnly n) =
      { s with ser1 := (s.ser1.receive n []).acquire n, waiting := some pid } :=
  (if_pos nonempty).trans (if_pos rfl)

theorem matchSecond_cases (matched : matchSecond s = some next) :
    ∃ pid body rest, s.waiting = some pid ∧ s.second pid = body :: rest ∧ next = finish
      { s with
        second := Function.update s.second pid rest
        ser1 := s.ser1.receive s.ser1.sizeField body } pid
      (s.ser1.receive s.ser1.sizeField body).bodyBytes := by
  obtain ⟨pid, isWaiting, continued⟩ := Option.bind_eq_some_iff.mp matched
  split at continued
  · cases continued
  · rename_i body rest isSecond
    cases continued
    exact ⟨pid, body, rest, isWaiting, isSecond, rfl⟩

theorem State.Flows.congr {other : Pid} (flows : s.Flows other)
    (heads : next.heads other = s.heads other) (bodies : next.bodies other = s.bodies other)
    (sent : next.sent other = s.sent other)
    (received : next.receivedFrom other = s.receivedFrom other) : next.Flows other := by
  obtain ⟨messages, framed, total⟩ := flows
  exact ⟨messages, by rwa [heads, bodies], by rwa [received, sent]⟩

theorem Inv.sender (inv : Inv s) (ser1 : next.ser1 = s.ser1) (ser2 : next.ser2 = s.ser2)
    (posted : next.posted = s.posted) (waiting : next.waiting = s.waiting)
    (received : next.received = s.received) (flows : ∀ other, next.Flows other) : Inv next := by
  refine ⟨flows, ?_, ?_, ?_, ?_⟩
  · rw [ser2]
    exact inv.valid2
  · rw [ser2, received]
    exact inv.small2
  · rw [ser1, posted, waiting, received]
    exact inv.ready
  · rw [ser1, waiting, received]
    exact inv.awaits

theorem Inv.sendBytes (inv : Inv s) (sent : sendBytes s pid body = some next) : Inv next := by
  unfold Comm.sendBytes at sent
  split at sent
  · cases sent
  · rename_i allowed
    simp only [Bool.or_eq_true, decide_eq_true_eq, not_or, not_lt] at allowed
    obtain ⟨free, bounded⟩ := allowed
    have noHalf : s.half pid = none := Option.not_isSome_iff_eq_none.mp free
    obtain ⟨messages, framed, total⟩ := inv.flows pid
    have grown : s.receivedFrom pid ++ (messages ++ [body]) = s.sent pid ++ [body] := by
      rw [← total, List.append_assoc]
    split at sent
    · rename_i small
      cases sent
      refine inv.sender rfl rfl rfl rfl rfl fun other => ?_
      by_cases same : other = pid
      · subst same
        refine ⟨messages ++ [body], ?_, ?_⟩
        · simpa [State.heads, State.bodies] using framed.snoc_combined small
        · simp only [Function.update_self]
          exact grown
      · exact (inv.flows other).congr (by simp [State.heads, same]) rfl (by simp [same]) rfl
    · rename_i large
      cases sent
      refine inv.sender rfl rfl rfl rfl rfl fun other => ?_
      by_cases same : other = pid
      · subst same
        rw [State.bodies, noHalf, Option.toList_none, List.append_nil] at framed
        refine ⟨messages ++ [body], ?_, ?_⟩
        · simpa [State.heads, State.bodies] using framed.snoc_split (not_lt.mp large) bounded
        · simp only [Function.update_self]
          exact grown
      · exact (inv.flows other).congr (by simp [State.heads, same]) (by simp [State.bodies, same])
          (by simp [same]) rfl

theorem Inv.sendSecond (inv : Inv s) (isHalf : s.half pid = some body) : Inv { s with
    half := Function.update s.half pid none
    second := Function.update s.second pid (s.second pid ++ [body]) } := by
  refine inv.sender rfl rfl rfl rfl rfl fun other => ?_
  refine (inv.flows other).congr rfl ?_ rfl rfl
  by_cases same : other = pid
  · subst same
    simp [State.bodies, isHalf]
  · simp [State.bodies, same]

theorem Inv.matchFirst (inv : Inv s) (matched : matchFirst s pid = some next) : Inv next := by
  obtain ⟨idle, msg, rest, isFirst, nonneg, rfl⟩ := matchFirst_cases matched
  obtain ⟨ready, posted, small1⟩ := inv.ready idle
  have smallSize : s.ser1.size ≤ 2 ^ 31 := by
    rw [← (toInt_capacity ready.toValid).1, ← posted]
    exact nonneg
  have before := small1.mp smallSize
  obtain ⟨messages, framed, total⟩ := inv.flows pid
  have heads : s.heads pid = msg :: rest := by simp [State.heads, idle, isFirst]
  rw [heads] at framed
  generalize isBodies : s.bodies pid = bodies at framed
  cases framed with
  | @combined body _ _ messages isSmall framed =>
      obtain ⟨ser1, valid1, sameSize, isNext⟩ := afterFirst_combined
        { s with first := Function.update s.first pid rest } pid ready isSmall
      rw [isNext]
      have bodySmall : Small body := by
        rw [headerSize, buffSize_eq] at isSmall
        rw [Small]
        omega
      refine .finish valid1 (iff_of_true (sameSize ▸ smallSize) bodySmall) inv.valid2 inv.small2
        before fun other => ?_
      by_cases same : other = pid
      · subst same
        refine ⟨messages, ?_, ?_⟩
        · simp only [heads_finish, Function.update_self]
          exact isBodies ▸ framed
        · rw [receivedFrom_finish, if_pos rfl, List.append_assoc]
          exact total
      · refine (inv.flows other).congr ?_ rfl rfl ?_
        · simp [State.heads, idle, same]
        · rw [receivedFrom_finish, if_neg (Ne.symm same), List.append_nil]
          rfl
  | @split body _ bodies messages isLarge bounded framed =>
      have limits : 8388592 ≤ 8 + body.length ∧ 8 + body.length ≤ 2 ^ 31 - 1 := ⟨isLarge, bounded⟩
      rw [afterFirst_split (show body.length ≠ 0 by omega)]
      have received : (s.ser1.receive body.length []).Ready :=
        ⟨ready.toValid.receive body.length [], ready.curr⟩
      obtain ⟨valid, curr, size⟩ := Buffer.acquire_spec (n := body.length) received (by omega)
      have sizeField : ((s.ser1.receive body.length []).acquire body.length).sizeField =
          body.length := Buffer.sizeField_acquire _ _
      refine ⟨fun other => ?_, inv.valid2, inv.small2, nofun, ?_⟩
      · by_cases same : other = pid
        · subst same
          refine ⟨body :: messages, ?_, total⟩
          have newHeads : State.heads { s with
              first := Function.update s.first other rest
              ser1 := (s.ser1.receive body.length []).acquire body.length
              waiting := some other } other = .headerOnly body.length :: rest := by
            simp [State.heads, sizeField]
          have newBodies : State.bodies { s with
              first := Function.update s.first other rest
              ser1 := (s.ser1.receive body.length []).acquire body.length
              waiting := some other } other = body :: bodies := isBodies
          rw [newHeads, newBodies]
          exact .split isLarge bounded framed
        · refine (inv.flows other).congr ?_ rfl rfl rfl
          simp [State.heads, idle, same, Ne.symm same]
      · rintro _ ⟨⟩
        rw [sizeField]
        exact ⟨valid, curr, size.trans ⟨And.right, fun small => ⟨smallSize, small⟩⟩, before⟩

theorem Inv.matchSecond (inv : Inv s) (matched : matchSecond s = some next) : Inv next := by
  obtain ⟨pid, body, rest, isWaiting, isSecond, rfl⟩ := matchSecond_cases matched
  obtain ⟨valid, curr, size, before⟩ := inv.awaits pid isWaiting
  obtain ⟨messages, framed, total⟩ := inv.flows pid
  have heads : s.heads pid = .headerOnly s.ser1.sizeField :: s.first pid := by
    simp [State.heads, isWaiting]
  have bodies : s.bodies pid = body :: (rest ++ (s.half pid).toList) := by
    simp [State.bodies, isSecond]
  rw [heads, bodies] at framed
  obtain ⟨isSize, messages, rfl, later⟩ := framed.split_inv
  have bodyBytes : (s.ser1.receive s.ser1.sizeField body).bodyBytes = body := by
    simp [Buffer.bodyBytes, Buffer.receive, curr, valid.body, isSize]
  rw [bodyBytes]
  refine .finish (valid.receive _ _) ?_ inv.valid2 inv.small2 before fun other => ?_
  · rw [Small, ← isSize]
    exact size
  · by_cases same : other = pid
    · subst same
      refine ⟨messages, ?_, ?_⟩
      · simp only [heads_finish, State.bodies, finish_second, finish_half, Function.update_self]
        exact later
      · rw [receivedFrom_finish, if_pos rfl, List.append_assoc]
        exact total
    · refine (inv.flows other).congr ?_ ?_ rfl ?_
      · simp [State.heads, isWaiting, Ne.symm same]
      · simp [State.bodies, same]
      · rw [receivedFrom_finish, if_neg (Ne.symm same), List.append_nil]
        rfl

theorem Inv.step {action : Action Pid} (inv : Inv s) (stepped : step s action = some next) :
    Inv next := by
  cases action with
  | sendBytes pid body => exact inv.sendBytes stepped
  | sendSecond pid =>
      obtain ⟨body, isHalf, rfl⟩ := Option.map_eq_some_iff.mp stepped
      exact inv.sendSecond isHalf
  | matchFirst pid => exact inv.matchFirst stepped
  | matchSecond => exact inv.matchSecond stepped

theorem inv_initial : Inv (State.initial : State Pid) := by
  obtain ⟨ready, size⟩ := Buffer.initial_ready
  have small : Buffer.initial.size ≤ 2 ^ 31 := by
    rw [size]
    decide
  refine ⟨fun pid => ⟨[], .nil, rfl⟩, ready.toValid, iff_of_true small nofun, fun _ => ?_, nofun⟩
  exact ⟨ready, rfl, iff_of_true small nofun⟩

theorem inv_of_reached (reached : Reachable system s) : Inv s := by
  refine reached.invariant Inv ?_ ?_
  · rintro _ rfl
    exact inv_initial
  · exact fun _ _ _ _ inv _ stepped => inv.step stepped

theorem matchSecond_eq {rest : List Bytes} (isWaiting : s.waiting = some pid)
    (isSecond : s.second pid = body :: rest) : Comm.matchSecond s = some (finish
      { s with
        second := Function.update s.second pid rest
        ser1 := s.ser1.receive s.ser1.sizeField body } pid
      (s.ser1.receive s.ser1.sizeField body).bodyBytes) := by
  simp [Comm.matchSecond, isWaiting, isSecond]

end Invariant

section Promise

variable {s : State Pid}

theorem Inv.inOrder (inv : Inv s) (pid : Pid) : s.receivedFrom pid <+: s.sent pid := by
  obtain ⟨messages, -, total⟩ := inv.flows pid
  exact ⟨messages, total⟩

theorem Inv.complete (inv : Inv s) (pid : Pid) (noFirst : s.first pid = [])
    (notWaiting : s.waiting ≠ some pid) : s.receivedFrom pid = s.sent pid := by
  obtain ⟨messages, framed, total⟩ := inv.flows pid
  rw [State.heads, if_neg notWaiting, noFirst] at framed
  rw [framed.messages_nil, List.append_nil] at total
  exact total

theorem Inv.told (inv : Inv s) (pid : Pid) {msg : FirstMsg} (member : msg ∈ s.first pid) :
    (msg.isSplit = true ↔ ∃ n, msg = .headerOnly n) ∧ msg.count + 8 ≤ 2 ^ 23 := by
  obtain ⟨messages, framed, -⟩ := inv.flows pid
  exact framed.told (List.mem_append_right _ member)

theorem Inv.continues (inv : Inv s) {pid : Pid} (isWaiting : s.waiting = some pid) :
    (Comm.step s .matchSecond).isSome = true ∨ (Comm.step s (.sendSecond pid)).isSome = true := by
  obtain ⟨messages, framed, -⟩ := inv.flows pid
  rw [State.heads, if_pos isWaiting, State.bodies] at framed
  cases isSecond : s.second pid with
  | cons body rest => exact .inl (by simp [Comm.step, Comm.matchSecond, isWaiting, isSecond])
  | nil =>
      cases isHalf : s.half pid with
      | some body => exact .inr (by simp [Comm.step, isHalf])
      | none =>
          rw [isSecond, isHalf] at framed
          exact absurd rfl framed.bodies_ne_nil

theorem Inv.posted (inv : Inv s) (idle : s.waiting = none) (small : s.ser1.size ≤ 2 ^ 31) :
    s.ser1.header + s.posted = s.ser1.size ∧ 0 ≤ s.posted ∧
      ∀ pid, ∀ msg ∈ s.first pid, msg.count ≤ s.posted := by
  obtain ⟨ready, posted, -⟩ := inv.ready idle
  have isPosted : s.posted = s.ser1.size - 8 := posted.trans ((toInt_capacity ready.toValid).2 small)
  have atLeast := ready.atLeast
  refine ⟨?_, by omega, fun pid msg member => ?_⟩
  · rw [ready.header]
    omega
  · have := (inv.told pid member).2
    omega

theorem Inv.nonneg_iff (inv : Inv s) (idle : s.waiting = none) :
    0 ≤ s.posted ↔ ∀ entry ∈ s.received.dropLast, Small entry.2 := by
  obtain ⟨ready, posted, small⟩ := inv.ready idle
  rw [← small, ← (toInt_capacity ready.toValid).1, posted]

/-- Nothing is on its way. -/
structure Idle (s : State Pid) (pid : Pid) : Prop where
  waiting : s.waiting = none
  first : s.first pid = []
  half : s.half pid = none

section Delivery

variable {t : State Pid} {pid : Pid} {body : Bytes}

theorem reachable_step (reached : Reachable system s) (action : Action Pid)
    (stepped : Comm.step s action = some t) : Reachable system t :=
  reached.step trivial (show system.step s action = some t from stepped)

theorem sendBytes_eq (noHalf : s.half pid = none) (bounded : headerSize + body.length ≤ intMax) :
    ∃ t, Comm.step s (.sendBytes pid body) = some t ∧ t.sent pid = s.sent pid ++ [body] ∧
      t.waiting = s.waiting ∧ t.ser1 = s.ser1 ∧ t.ser2 = s.ser2 ∧
      (headerSize + body.length < Buffer.buffSize ∧
          t.first pid = s.first pid ++ [.combined body] ∧ t.half pid = none ∨
        t.first pid = s.first pid ++ [.headerOnly body.length] ∧ t.half pid = some body) := by
  have free : ¬ ((s.half pid).isSome || decide (headerSize + body.length > intMax)) = true := by
    simpa [noHalf] using bounded
  simp only [Comm.step, sendBytes, if_neg free]
  split
  · rename_i isSmall
    exact ⟨_, rfl, Function.update_self _ _ _, rfl, rfl, rfl,
      .inl ⟨isSmall, Function.update_self _ _ _, noHalf⟩⟩
  · exact ⟨_, rfl, Function.update_self _ _ _, rfl, rfl, rfl,
      .inr ⟨Function.update_self _ _ _, Function.update_self _ _ _⟩⟩

theorem receive_combined (reached : Reachable system t) (idle : t.waiting = none)
    (small : t.ser1.size ≤ 2 ^ 31) (isFirst : t.first pid = [.combined body])
    (noHalf : t.half pid = none) (isSmall : headerSize + body.length < Buffer.buffSize) :
    ∃ next, Reachable system next ∧ Idle next pid ∧ next.sent pid = t.sent pid ∧
      next.ser1 = t.ser2.reset t.ser2.addSize := by
  have inv := inv_of_reached reached
  have enough := (inv.posted idle small).2.2 pid _ (isFirst ▸ List.mem_singleton.mpr rfl)
  have matched := matchFirst_eq idle isFirst enough
  obtain ⟨ser1, -, -, isNext⟩ := afterFirst_combined
    { t with first := Function.update t.first pid [] } pid (inv.ready idle).1 isSmall
  rw [isNext] at matched
  refine ⟨_, reachable_step reached (.matchFirst pid) matched, ⟨rfl, ?_, noHalf⟩, rfl, rfl⟩
  exact Function.update_self _ _ _

theorem receive_split (reached : Reachable system t) (idle : t.waiting = none)
    (small : t.ser1.size ≤ 2 ^ 31) (isFirst : t.first pid = [.headerOnly body.length])
    (isHalf : t.half pid = some body) :
    ∃ next, Reachable system next ∧ Idle next pid ∧ next.sent pid = t.sent pid ∧
      next.ser1 = t.ser2.reset t.ser2.addSize ∧ body.length + 16 ≤ next.ser2.size := by
  have inv := inv_of_reached reached
  have ready := (inv.ready idle).1
  have received : (t.ser1.receive body.length []).Ready := ⟨ready.toValid.receive _ _, ready.curr⟩
  obtain ⟨messages, framed, -⟩ := inv.flows pid
  have heads : t.heads pid = [.headerOnly body.length] := by simp [State.heads, idle, isFirst]
  rw [heads] at framed
  have nonempty : body.length ≠ 0 := framed.size_ne_zero
  have enough := (inv.posted idle small).2.2 pid _ (isFirst ▸ List.mem_singleton.mpr rfl)
  have matched := matchFirst_eq idle isFirst enough
  rw [afterFirst_split nonempty] at matched
  have reachedFirst := reachable_step reached (.matchFirst pid) matched
  generalize isWaiting : { t with
      first := Function.update t.first pid []
      ser1 := (t.ser1.receive body.length []).acquire body.length
      waiting := some pid } = u at reachedFirst
  have uHalf : u.half pid = some body := by rw [← isWaiting]; exact isHalf
  have reachedSecond := reachable_step reachedFirst (.sendSecond pid) (congrArg (Option.map _) uHalf)
  have nonemptySecond : Function.update u.second pid (u.second pid ++ [body]) pid ≠ [] := by simp
  obtain ⟨_, _, isSecond⟩ := List.exists_cons_of_ne_nil nonemptySecond
  have waiting : u.waiting = some pid := by rw [← isWaiting]
  have reachedLast := reachable_step reachedSecond .matchSecond (matchSecond_eq waiting isSecond)
  refine ⟨_, reachedLast, ⟨rfl, ?_, Function.update_self _ _ _⟩, ?_, ?_, ?_⟩ <;> rw [← isWaiting]
  · exact Function.update_self _ _ _
  · rfl
  · rfl
  · exact Buffer.le_size_acquire received body.length

theorem Idle.deliver (idle : Idle s pid) (reached : Reachable system s)
    (small : s.ser1.size ≤ 2 ^ 31) (bounded : headerSize + body.length ≤ intMax) :
    ∃ next, Reachable system next ∧ Idle next pid ∧ next.sent pid = s.sent pid ++ [body] ∧
      next.ser1 = s.ser2.reset s.ser2.addSize ∧
      (Buffer.buffSize ≤ headerSize + body.length → body.length + 16 ≤ next.ser2.size) := by
  obtain ⟨t, sent, isSent, waiting, ser1, ser2, kind⟩ := sendBytes_eq idle.half bounded
  have reachedSent := reachable_step reached _ sent
  rw [idle.waiting] at waiting
  rw [← ser1] at small
  rw [← isSent, ← ser2]
  rw [idle.first, List.nil_append, List.nil_append] at kind
  rcases kind with ⟨isSmall, isFirst, noHalf⟩ | ⟨isFirst, isHalf⟩
  · obtain ⟨next, reachedNext, idleNext, sentNext, next1⟩ :=
      receive_combined reachedSent waiting small isFirst noHalf isSmall
    exact ⟨next, reachedNext, idleNext, sentNext, next1, fun large => by omega⟩
  · obtain ⟨next, reachedNext, idleNext, sentNext, next1, next2⟩ :=
      receive_split reachedSent waiting small isFirst isHalf
    exact ⟨next, reachedNext, idleNext, sentNext, next1, fun _ => next2⟩

end Delivery

/-- The channel is correct as long as only the last message may have been one which enlarges its
buffer to 4 GiB. -/
theorem correct_iff (reached : Reachable system s) :
    Correct s ↔ ∀ entry ∈ s.received.dropLast, Small entry.2 := by
  have inv := inv_of_reached reached
  constructor
  · intro correct
    cases isWaiting : s.waiting with
    | some pid => exact (inv.awaits pid isWaiting).2.2.2
    | none => exact (inv.nonneg_iff isWaiting).mp (correct.nonneg isWaiting)
  · intro small
    have posted := fun idle => inv.posted idle ((inv.ready idle).2.2.mpr small)
    refine ⟨fun idle => (posted idle).2.1, fun idle => (posted idle).1.le,
      fun idle => (posted idle).2.2, fun pid msg member => (inv.told pid member).1, inv.inOrder,
      inv.complete, fun pid idle nonempty => ?_, fun pid => inv.continues⟩
    obtain ⟨msg, rest, isFirst⟩ := List.exists_cons_of_ne_nil nonempty
    have enough := (posted idle).2.2 pid msg (by rw [isFirst]; exact List.mem_cons_self)
    rw [step, matchFirst_eq idle isFirst enough]
    rfl

end Promise

section Example

variable {s : State Unit}

theorem received_of_idle (reached : Reachable system s) (idle : Idle s ()) :
    s.received.map Prod.snd = s.sent () := by
  have all := (inv_of_reached reached).complete () idle.first (by simp [idle.waiting])
  simpa [State.receivedFrom] using all

theorem deliver_two {big small : Bytes} (bounded : headerSize + big.length ≤ intMax)
    (boundedToo : headerSize + small.length ≤ intMax) :
    ∃ s : State Unit, Reachable system s ∧ Idle s () ∧ s.sent () = [big, small] ∧
      s.received = [((), big), ((), small)] ∧
      (Buffer.buffSize ≤ headerSize + big.length → big.length + 16 ≤ s.ser1.size) := by
  have start : Idle (State.initial : State Unit) () := ⟨rfl, rfl, rfl⟩
  have fits : Buffer.initial.size ≤ 2 ^ 31 := by
    rw [Buffer.initial_ready.2]
    decide
  obtain ⟨s, reached, idle, sent, -, enlarged⟩ := start.deliver (.initial rfl) fits bounded
  have received := received_of_idle reached idle
  rw [sent] at received
  obtain ⟨entry, isReceived, -⟩ := List.map_eq_singleton_iff.mp received
  have inv := inv_of_reached reached
  obtain ⟨t, reachedLater, idleLater, sentLater, exchanged, -⟩ := idle.deliver reached
    ((inv.ready idle.waiting).2.2.mpr (by simp [isReceived])) boundedToo
  have receivedLater := received_of_idle reachedLater idleLater
  rw [sentLater, sent] at receivedLater
  refine ⟨t, reachedLater, idleLater, sentLater.trans (by rw [sent]; rfl), ?_, fun large => ?_⟩
  · have pairs := congrArg (List.map (Prod.mk ())) receivedLater
    simpa [Function.comp_def, State.initial] using pairs
  · rw [exchanged, inv.valid2.reset.2]
    exact enlarged large

/-- The largest message, and another one after it. -/
theorem receives_negative : ¬ ∀ s : State Unit, Reachable system s → Correct s := by
  intro always
  obtain ⟨big, length⟩ : ∃ big : Bytes, big.length = 2 ^ 31 - 9 :=
    ⟨List.replicate (2 ^ 31 - 9) 0, List.length_replicate⟩
  obtain ⟨s, reached, idle, -, received, -⟩ :=
    deliver_two (show headerSize + big.length ≤ intMax by rw [headerSize, intMax, length]; decide)
      (show headerSize + ([] : Bytes).length ≤ intMax by decide)
  have all := ((inv_of_reached reached).nonneg_iff idle.waiting).mp
    ((always s reached).nonneg idle.waiting)
  have tooLarge := all ((), big) (by simp [received])
  rw [Small, length] at tooLarge
  omega

/-- A message of 8 MiB is split and enlarges its buffer, which is posted again after the next
message. -/
theorem correct_iff_split : ∃ (big : Bytes) (s : State Unit), big.length = 2 ^ 23 ∧
    Reachable system s ∧ s.received = [((), big), ((), [1, 2, 3])] ∧ 2 ^ 23 < s.ser1.size ∧
    Correct s := by
  obtain ⟨big, length⟩ : ∃ big : Bytes, big.length = 2 ^ 23 :=
    ⟨List.replicate (2 ^ 23) 0, List.length_replicate⟩
  obtain ⟨s, reached, -, -, received, enlarged⟩ :=
    deliver_two (show headerSize + big.length ≤ intMax by rw [headerSize, intMax, length]; decide)
      (show headerSize + ([1, 2, 3] : Bytes).length ≤ intMax by decide)
  have large : big.length + 16 ≤ s.ser1.size :=
    enlarged (by rw [headerSize, buffSize_eq, length]; decide)
  refine ⟨big, s, length, reached, received, by omega, (correct_iff reached).mpr ?_⟩
  intro entry member
  obtain rfl : entry = ((), big) := by simpa [received] using member
  rw [Small, length]
  decide

end Example

end CnC.Comm
