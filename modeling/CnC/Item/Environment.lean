import CnC.Item.Operations

/-!
# Gets of the environment

A get of the environment blocks until it is told to try again.  It waits for one token of a queue
if the scheduler is active, as the put of the item finds the environment in the suspend group and
pushes one.  Otherwise it probes all other processes and waits for as many tokens: the process
which owns the item delivers it, and the others answer that it is not available.  `spawn_cleanup`
uses the same queue.

Every process has an environment, and messages arrive in any order.
-/

namespace CnC.Item.Environment

open Network Transition

universe u

variable {n : Nat} {Tag Item : Type u}

/-- Messages of the collection, PROBE and UNAVAIL.  No operation reads `answers`, which tells
that a message is the answer to a PROBE. -/
inductive Mail (n : Nat) (Tag Item : Type u) where
  | message (message : Msg n Tag Item) (answers : Bool)
  | probe (tag : Tag) (recpnt : Fin n)
  | unavail
  deriving DecidableEq

abbrev Mails (n : Nat) (Tag Item : Type u) := List (Fin n × Mail n Tag Item)

def numTrials : Nat := 1000

/-- Where the environment is in `get`: at the begin of a trial, in `block_for_put`, or in `probe`
before and after the request. -/
inductive Pc (Tag : Type u) where
  | idle
  | trial (tag : Tag) (probed : Bool) (trials : Nat)
  | blocked (tag : Tag) (probed : Bool) (trials : Nat)
  | request (tag : Tag) (trials : Nat)
  | await (tag : Tag) (number : Nat) (trials : Nat)
  deriving DecidableEq

/-- The environment of a process.  `suspended` are the tags whose suspend group has it as a member,
and `envIsWaiting` is the number of tokens.  A `spawn_cleanup` is waiting or not, and `cleaners` are
the service tasks which have not been executed.  No operation reads `replies`, the replies to the
last probe which have been processed. -/
structure Env (Tag : Type u) where
  pc : Pc Tag
  suspended : Tag → Bool
  envIsWaiting : Nat
  spawning : Bool
  cleaners : Nat
  replies : Nat

/-- No operation reads `failed`, which tells that the assertion of `spawn_cleanup` has failed. -/
structure State (n : Nat) (Tag Item : Type u) where
  proc : Fin n → Process n Tag Item
  env : Fin n → Env Tag
  inFlight : Mails n Tag Item
  failed : Bool

/-- A get of the environment begins, or goes on while the scheduler is active or not.  Step
instances get, put and erase, messages are received, and `spawn_cleanup` is called, executed by a
service task, and left. -/
inductive Action (n : Nat) (Tag Item : Type u) where
  | get (pid : Fin n) (tag : Tag)
  | proceed (pid : Fin n) (active : Bool)
  | stepGet (pid : Fin n) (tag : Tag)
  | put (pid : Fin n) (tag : Tag) (item : Item)
  | insert (pid : Fin n) (tag : Tag) (item : Item) (owner : Fin n)
  | erase (pid : Fin n) (tag : Tag)
  | receive (pid : Fin n) (mail : Mail n Tag Item)
  | spawnCleanup (pid : Fin n)
  | clean (pid : Fin n)
  | cleaned (pid : Fin n)

def nextTrial (tag : Tag) (probed : Bool) (trials : Nat) : Pc Tag :=
  if trials + 1 < numTrials then .trial tag probed (trials + 1) else .idle

/-- `probe` blocks for the given number of tokens. -/
def awaitReplies (tag : Tag) (number trials : Nat) : Pc Tag :=
  if number = 0 then nextTrial tag true trials else .await tag number trials

def plain (sent : Sent n Tag Item) : Mails n Tag Item :=
  sent.map fun pair => (pair.1, .message pair.2 false)

/-- `unblock_for_put`. -/
def Env.unblockForPut (env : Env Tag) : Env Tag :=
  { env with envIsWaiting := env.envIsWaiting + 1 }

section Steps

variable [DecidableEq Tag] (tuner : Tuner n Tag) (self : Fin n)

def Env.suspend (env : Env Tag) (tag : Tag) : Env Tag :=
  { env with suspended := Function.update env.suspended tag true }

/-- `resume`, and the token if the environment was in the group. -/
def Env.resume (env : Env Tag) (tag : Tag) : Env Tag :=
  if env.suspended tag then
    { env with suspended := Function.update env.suspended tag false }.unblockForPut
  else env

/-- `put_or_delete` inserts the item into the table. -/
def inserts (process : Process n Tag Item) (tag : Tag) (owner : Fin n) : Prop :=
  ¬ (tuner.getCount tag = 0 ∧ owner = self) ∧ (process.entry tag).item = none

instance (process : Process n Tag Item) (tag : Tag) (owner : Fin n) :
    Decidable (inserts tuner self process tag owner) := by
  unfold inserts
  cases (process.entry tag).item <;> infer_instance

/-- The begin of a trial, up to where the environment has to wait. -/
def tryGet (process : Process n Tag Item) (env : Env Tag) (tag : Tag) (probed : Bool)
    (trials : Nat) (active : Bool) : Process n Tag Item × Env Tag × Mails n Tag Item :=
  match (process.entry tag).item with
  | some _ => (process, { env with pc := .idle }, [])
  | none =>
      if active then
        let blocked := blockForPut self process tag (process.entry tag)
        (blocked.1, { env.suspend tag with pc := .blocked tag probed trials }, plain blocked.2)
      else if probed then (process, { env with pc := nextTrial tag probed trials }, [])
      else
        (process.setEntry tag (some (process.entry tag).suspend),
          { env.suspend tag with pc := .request tag trials }, [])

/-- `item_collection_base::get` of the environment, up to where it has to wait. -/
def proceed (process : Process n Tag Item) (env : Env Tag) (active : Bool) :
    Option (Process n Tag Item × Env Tag × Mails n Tag Item) :=
  match env.pc with
  | .idle => none
  | .trial tag probed trials => some (tryGet self process env tag probed trials active)
  | .request tag trials =>
      some (process, { env with pc := awaitReplies tag (n - 1) trials, replies := 0 },
        (others self).map fun receiver => (receiver, .probe tag self))
  | .blocked tag probed trials =>
      if 0 < env.envIsWaiting then
        some (process, { env with
          envIsWaiting := env.envIsWaiting - 1, pc := nextTrial tag probed trials }, [])
      else none
  | .await tag number trials =>
      if 0 < env.envIsWaiting then
        some (process, { env with
          envIsWaiting := env.envIsWaiting - 1, pc := awaitReplies tag (number - 1) trials }, [])
      else none

/-- `get_request` for a PROBE: without an item to deliver, the answer is UNAVAIL. -/
def probeRequest (process : Process n Tag Item) (tag : Tag) (recpnt : Fin n) :
    Process n Tag Item × Mails n Tag Item :=
  let result := getRequest self process tag recpnt
  match result.2 with
  | [] => (result.1, [(recpnt, .unavail)])
  | sent => (result.1, sent.map fun pair => (pair.1, .message pair.2 true))

/-- A process and its environment take a new state, and send messages. -/
def State.apply (s : State n Tag Item) (pid : Fin n) (process : Process n Tag Item)
    (env : Env Tag) (sent : Mails n Tag Item) : State n Tag Item :=
  { s with
    proc := Function.update s.proc pid process
    env := Function.update s.env pid env
    inFlight := s.inFlight ++ sent }

/-- The local part of `put_or_delete`. -/
def State.insertAt (s : State n Tag Item) (pid : Fin n) (process : Process n Tag Item)
    (env : Env Tag) (tag : Tag) (item : Item) (owner : Fin n) : State n Tag Item :=
  let result := putOrDelete tuner pid process tag item owner
  s.apply pid result.1 (if inserts tuner pid process tag owner then env.resume tag else env)
    (plain result.2.1)

def Env.reply (env : Env Tag) (answers : Bool) : Env Tag :=
  if answers then { env with replies := env.replies + 1 } else env

/-- `recv_msg`. -/
def State.recvMsg (s : State n Tag Item) (pid : Fin n) :
    Mail n Tag Item → Option (State n Tag Item)
  | .message (.request tag recpnt) _ =>
      let result := getRequest pid (s.proc pid) tag recpnt
      some (s.apply pid result.1 (s.env pid) (plain result.2))
  | .message (.deliver owner tag item) answers =>
      some (s.insertAt tuner pid (s.proc pid) ((s.env pid).reply answers) tag item owner)
  | .message (.deliverToOwn tag item) _ =>
      some (s.insertAt tuner pid (s.proc pid) (s.env pid) tag item pid)
  | .message _ _ => none
  | .probe tag recpnt =>
      let result := probeRequest pid (s.proc pid) tag recpnt
      some (s.apply pid result.1 (s.env pid) result.2)
  | .unavail =>
      some (s.apply pid (s.proc pid) ((s.env pid).reply true).unblockForPut [])

/-- The message is taken. -/
def State.take [DecidableEq Item] (s : State n Tag Item) (pid : Fin n)
    (mail : Mail n Tag Item) : State n Tag Item :=
  { s with inFlight := s.inFlight.erase (pid, mail) }

def step [DecidableEq Item] (s : State n Tag Item) :
    Action n Tag Item → Option (State n Tag Item)
  | .get pid tag =>
      if (s.env pid).pc = .idle then
        some (s.apply pid (s.proc pid) { s.env pid with pc := .trial tag false 0 } [])
      else none
  | .proceed pid active =>
      (proceed pid (s.proc pid) (s.env pid) active).map fun result =>
        s.apply pid result.1 result.2.1 result.2.2
  | .stepGet pid tag =>
      let result := CnC.Item.get tuner pid (s.proc pid) tag
      some (s.apply pid result.1 (s.env pid) (plain result.2))
  | .put pid tag item =>
      (deliverPut pid tag item (tuner.consumedOn tag)).map fun result =>
        s.apply pid
          { s.proc pid with
            putting := if result.2.1 then (tag, item, result.1) :: (s.proc pid).putting
              else (s.proc pid).putting }
          (s.env pid) (plain result.2.2)
  | .insert pid tag item owner =>
      if (s.proc pid).putting.contains (tag, item, owner) then
        some (s.insertAt tuner pid
          { s.proc pid with putting := (s.proc pid).putting.erase (tag, item, owner) }
          (s.env pid) tag item owner)
      else none
  | .erase pid tag =>
      some (s.apply pid ((s.proc pid).setEntry tag none)
        { s.env pid with suspended := Function.update (s.env pid).suspended tag false } [])
  | .receive pid mail =>
      if (pid, mail) ∈ s.inFlight then (s.take pid mail).recvMsg tuner pid mail else none
  | .spawnCleanup pid =>
      if (s.env pid).spawning then none
      else some { s.apply pid (s.proc pid)
          { s.env pid with spawning := true, cleaners := (s.env pid).cleaners + 1 } [] with
        failed := s.failed || decide ((s.env pid).envIsWaiting ≠ 0) }
  | .clean pid =>
      if 0 < (s.env pid).cleaners then
        some (s.apply pid (s.proc pid)
          { s.env pid with cleaners := (s.env pid).cleaners - 1 }.unblockForPut [])
      else none
  | .cleaned pid =>
      if (s.env pid).spawning ∧ 0 < (s.env pid).envIsWaiting then
        some (s.apply pid (s.proc pid)
          { s.env pid with spawning := false, envIsWaiting := (s.env pid).envIsWaiting - 1 } [])
      else none

end Steps

def start (n : Nat) (Tag Item : Type u) : State n Tag Item where
  proc _ :=
    { table := fun _ => none
      sers := fun _ => none
      numgc := 0
      erasedSer := none
      gCounting := 0
      gathering := 0
      getList := []
      putting := [] }
  env _ :=
    { pc := .idle
      suspended := fun _ => false
      envIsWaiting := 0
      spawning := false
      cleaners := 0
      replies := n - 1 }
  inFlight := []
  failed := false

def system [DecidableEq Tag] [DecidableEq Item] (tuner : Tuner n Tag) :
    System (State n Tag Item) (Action n Tag Item) where
  Initial s := s = start n Tag Item
  step := step tuner

def Concerns (pid : Fin n) : Fin n × Mail n Tag Item → Bool
  | (target, .message (.deliver _ _ _) true) => decide (target = pid)
  | (_, .probe _ recpnt) => decide (recpnt = pid)
  | (target, .unavail) => decide (target = pid)
  | _ => false

/-- How many replies to the probe of the process have not been processed. -/
def State.outstanding (s : State n Tag Item) (pid : Fin n) : Nat :=
  s.inFlight.countP (Concerns pid)

namespace Pc

def waits : Pc Tag → Bool
  | blocked _ _ _ | request _ _ | await _ _ _ => true
  | _ => false

def awaits : Pc Tag → Bool
  | await _ _ _ => true
  | _ => false

/-- How many tokens the environment waits for. -/
def pops : Pc Tag → Nat
  | blocked _ _ _ => 1
  | await _ number _ => number
  | _ => 0

end Pc

/-- The environment is in `block_for_put` for the tag. -/
def Env.BlockedOn (env : Env Tag) (tag : Tag) : Prop :=
  match env.pc with
  | .blocked other _ _ => other = tag
  | _ => False

def Env.due (env : Env Tag) : Nat :=
  match env.pc with
  | .blocked tag _ _ => if env.suspended tag then 1 else 0
  | _ => 0

/-- There are not more tokens than the process waits for, and only `probe` has to expect replies. -/
structure Balanced (n : Nat) (env : Env Tag) (outstanding : Nat) : Prop where
  tokens : env.envIsWaiting + env.cleaners + outstanding + env.due ≤
    env.pc.pops + env.spawning.toNat
  replies : env.replies + outstanding = n - 1
  answered : env.pc.awaits = false → outstanding = 0
  alone : env.pc.waits = true → env.spawning = false

def Env.Expects (env : Env Tag) (tag : Tag) : Prop :=
  env.suspended tag = true → env.BlockedOn tag

def Env.BeginsToWait (env : Env Tag) (process : Process n Tag Item) (active : Bool) : Prop :=
  match env.pc with
  | .trial tag probed _ => (process.entry tag).item = none ∧ (active = true ∨ probed = false)
  | _ => False

/-- An item which is inserted is the answer to the current probe, or it does not resume the
environment, or only where this is blocked for it.  `spawn_cleanup` is not called while the
environment waits, nor the other way round. -/
def Calm [DecidableEq Tag] (tuner : Tuner n Tag) (s : State n Tag Item) : Action n Tag Item → Prop
  | .insert pid tag _ owner =>
      inserts tuner pid (s.proc pid) tag owner → (s.env pid).Expects tag
  | .receive pid (.message (.deliver owner tag _) answers) =>
      answers = true ∨ (inserts tuner pid (s.proc pid) tag owner → (s.env pid).Expects tag)
  | .receive pid (.message (.deliverToOwn tag _) _) =>
      inserts tuner pid (s.proc pid) tag pid → (s.env pid).Expects tag
  | .proceed pid active =>
      (s.env pid).BeginsToWait (s.proc pid) active → (s.env pid).spawning = false
  | .spawnCleanup pid => (s.env pid).pc.waits = false
  | _ => True

instance [DecidableEq Tag] (tuner : Tuner n Tag) (s : State n Tag Item)
    (action : Action n Tag Item) : Decidable (Calm tuner s action) := by
  unfold Calm Env.Expects Env.BlockedOn Env.BeginsToWait
  repeat' split
  all_goals infer_instance

section Balance

variable {env : Env Tag} {outstanding : Nat} {tag : Tag}

theorem nextTrial_still (tag : Tag) (probed : Bool) (trials : Nat) :
    (nextTrial tag probed trials).waits = false := by
  unfold nextTrial
  split <;> rfl

theorem exists_blocked (blocked : env.BlockedOn tag) :
    ∃ probed trials, env.pc = .blocked tag probed trials := by
  unfold Env.BlockedOn at blocked
  cases isPc : env.pc with
  | blocked other probed trials =>
      rw [isPc] at blocked
      exact ⟨probed, trials, by rw [blocked]⟩
  | _ =>
      rw [isPc] at blocked
      exact blocked.elim

theorem due_of_not_waits (still : env.pc.waits = false) : env.due = 0 := by
  unfold Env.due
  split
  · rename_i isPc
    rw [isPc] at still
    cases still
  · rfl

theorem exists_await {pc : Pc Tag} (awaits : pc.awaits = true) :
    ∃ tag number trials, pc = .await tag number trials := by
  cases pc with
  | await tag number trials => exact ⟨tag, number, trials, rfl⟩
  | idle => cases awaits
  | trial tag probed trials => cases awaits
  | blocked tag probed trials => cases awaits
  | request tag trials => cases awaits

theorem Balanced.exists_await (balanced : Balanced n env (outstanding + 1)) :
    ∃ tag number trials, env.pc = .await tag number trials := by
  cases awaits : env.pc.awaits with
  | true => exact Environment.exists_await awaits
  | false => exact absurd (balanced.answered awaits) (Nat.succ_ne_zero outstanding)

theorem Balanced.replied (balanced : Balanced n env (outstanding + 1)) (suspended : Tag → Bool)
    {tokens : Nat} (atMost : tokens ≤ env.envIsWaiting + 1) :
    Balanced n { env with
      suspended := suspended, envIsWaiting := tokens, replies := env.replies + 1 } outstanding := by
  obtain ⟨tag, number, trials, isPc⟩ := balanced.exists_await
  obtain ⟨before, replies, -, alone⟩ := balanced
  simp only [Env.due, isPc, Pc.pops] at before
  refine ⟨?_, ?_, ?_, alone⟩
  · simp only [Env.due, isPc, Pc.pops]
    omega
  · exact (Nat.add_right_comm _ 1 outstanding).trans replies
  · simp [isPc, Pc.awaits]

theorem Balanced.unavail (balanced : Balanced n env (outstanding + 1)) :
    Balanced n (env.reply true).unblockForPut outstanding :=
  balanced.replied env.suspended le_rfl

theorem Balanced.still (balanced : Balanced n env outstanding) (isStill : env.pc.waits = false) :
    outstanding = 0 ∧ env.envIsWaiting + env.cleaners ≤ env.spawning.toNat := by
  have nothing : env.pc.awaits = false ∧ env.pc.pops = 0 := by
    cases isPc : env.pc <;> simp_all [Pc.waits, Pc.awaits, Pc.pops]
  have tokens := balanced.tokens
  rw [due_of_not_waits isStill, balanced.answered nothing.1, nothing.2] at tokens
  exact ⟨balanced.answered nothing.1, by omega⟩

theorem balanced_of_still (isStill : env.pc.waits = false)
    (tokens : env.envIsWaiting + env.cleaners ≤ env.spawning.toNat)
    (replies : env.replies + 0 = n - 1) : Balanced n env 0 := by
  refine ⟨?_, replies, fun _ => rfl, fun waits => absurd waits (by simp [isStill])⟩
  rw [due_of_not_waits isStill]
  omega

variable [DecidableEq Tag]

theorem Balanced.answer (balanced : Balanced n env (outstanding + 1)) (tag : Tag) :
    Balanced n (env.reply true) outstanding ∧
      Balanced n ((env.reply true).resume tag) outstanding := by
  have replied := balanced.replied env.suspended (Nat.le_succ env.envIsWaiting)
  refine ⟨replied, ?_⟩
  by_cases isMember : env.suspended tag = true
  · have resumed := balanced.replied (Function.update env.suspended tag false) le_rfl
    simpa [Env.resume, Env.reply, isMember, Env.unblockForPut] using resumed
  · simpa [Env.resume, Env.reply, isMember] using replied

theorem Balanced.resume (balanced : Balanced n env outstanding) (expects : env.Expects tag) :
    Balanced n (env.resume tag) outstanding := by
  by_cases isMember : env.suspended tag = true
  · obtain ⟨probed, trials, isPc⟩ := exists_blocked (expects isMember)
    obtain ⟨tokens, replies, answered, alone⟩ := balanced
    simp only [isPc, Env.due, isMember, Pc.pops, if_true] at tokens
    refine ⟨?_, ?_, ?_, ?_⟩
    · simp [Env.resume, isMember, Env.unblockForPut, isPc, Env.due, Pc.pops]
      omega
    · simpa [Env.resume, isMember, Env.unblockForPut] using replies
    · simpa [Env.resume, isMember, Env.unblockForPut] using answered
    · simpa [Env.resume, isMember, Env.unblockForPut] using alone
  · rw [Env.resume, if_neg isMember]
    exact balanced

omit [DecidableEq Tag] in
theorem countP_plain (sent : Sent n Tag Item) (pid : Fin n) :
    (plain sent).countP (Concerns pid) = 0 := by
  rw [plain, List.countP_map, List.countP_eq_zero]
  rintro ⟨target, message⟩ _
  cases message <;> exact Bool.false_ne_true

omit [DecidableEq Tag] in
theorem countP_probes (self pid : Fin n) (tag : Tag) :
    ((others self).map fun receiver => (receiver, (.probe tag self : Mail n Tag Item))).countP
      (Concerns pid) = if pid = self then n - 1 else 0 := by
  rw [List.countP_map]
  by_cases same : pid = self
  · have all : ∀ receiver ∈ others self,
        (Concerns pid ∘ fun receiver => (receiver, (.probe tag self : Mail n Tag Item))) receiver :=
      fun _ _ => decide_eq_true same.symm
    rw [if_pos same, List.countP_eq_length.mpr all, length_others]
  · rw [if_neg same, List.countP_eq_zero]
    intro receiver _
    simp [Concerns, Ne.symm same]

theorem Balanced.tryGet {self : Fin n} {process : Process n Tag Item} {probed : Bool}
    {trials : Nat} {active : Bool} (balanced : Balanced n env outstanding)
    (isPc : env.pc = .trial tag probed trials)
    (calm : env.BeginsToWait process active → env.spawning = false) :
    Balanced n (tryGet self process env tag probed trials active).2.1 outstanding ∧
      ∀ pid, (tryGet self process env tag probed trials active).2.2.countP (Concerns pid) = 0 := by
  obtain ⟨rfl, tokens⟩ := balanced.still (by rw [isPc]; rfl)
  have replies := balanced.replies
  simp only [Env.BeginsToWait, isPc] at calm
  unfold Environment.tryGet
  cases isItem : (process.entry tag).item with
  | some item => exact ⟨balanced_of_still rfl tokens replies, fun _ => rfl⟩
  | none =>
      cases active with
      | true =>
          have alone := calm ⟨isItem, .inl rfl⟩
          refine ⟨⟨?_, replies, fun _ => rfl, fun _ => alone⟩, fun pid => countP_plain _ pid⟩
          simp [Env.due, Env.suspend, Pc.pops]
          omega
      | false =>
          cases probed with
          | true =>
              exact ⟨balanced_of_still (nextTrial_still tag true trials) tokens replies, fun _ => rfl⟩
          | false =>
              have alone := calm ⟨isItem, .inr rfl⟩
              refine ⟨⟨?_, replies, fun _ => rfl, fun _ => alone⟩, fun _ => rfl⟩
              simpa [Env.due, Env.suspend, Pc.pops] using tokens

omit [DecidableEq Tag] in
theorem Balanced.popped {number : Nat} (balanced : Balanced n env outstanding)
    (isToken : 0 < env.envIsWaiting) (trials : Nat)
    (isPc : env.pc = .await tag number trials) :
    Balanced n { env with
      envIsWaiting := env.envIsWaiting - 1, pc := awaitReplies tag (number - 1) trials }
      outstanding := by
  obtain ⟨tokens, replies, answered, alone⟩ := balanced
  have notSpawning := alone (by rw [isPc]; rfl)
  simp only [isPc, Env.due, Pc.pops, notSpawning, Bool.toNat_false] at tokens
  by_cases isLast : number - 1 = 0
  · have nothing : outstanding = 0 := by omega
    subst nothing
    rw [awaitReplies, if_pos isLast]
    refine balanced_of_still (nextTrial_still tag true trials) ?_ replies
    simp only [notSpawning, Bool.toNat_false]
    omega
  · rw [awaitReplies, if_neg isLast]
    refine ⟨?_, replies, nofun, fun _ => notSpawning⟩
    simp only [Env.due, Pc.pops, notSpawning, Bool.toNat_false]
    omega

omit [DecidableEq Tag] in
theorem Balanced.requested {trials : Nat} (balanced : Balanced n env outstanding)
    (isPc : env.pc = .request tag trials) :
    Balanced n { env with pc := awaitReplies tag (n - 1) trials, replies := 0 }
      (outstanding + (n - 1)) := by
  obtain ⟨tokens, -, answered, alone⟩ := balanced
  have notSpawning := alone (by rw [isPc]; rfl)
  obtain rfl := answered (by rw [isPc]; rfl)
  simp only [isPc, Env.due, Pc.pops, notSpawning, Bool.toNat_false] at tokens
  by_cases isAlone : n - 1 = 0
  · rw [awaitReplies, if_pos isAlone, isAlone]
    refine balanced_of_still (nextTrial_still tag true trials) ?_ isAlone.symm
    simp only [notSpawning, Bool.toNat_false]
    omega
  · rw [awaitReplies, if_neg isAlone]
    refine ⟨?_, (Nat.zero_add _).trans (Nat.zero_add _), nofun, fun _ => notSpawning⟩
    simp only [Env.due, Pc.pops, notSpawning, Bool.toNat_false]
    omega

theorem Balanced.proceed {self : Fin n} {process : Process n Tag Item} {active : Bool}
    {result : Process n Tag Item × Env Tag × Mails n Tag Item}
    (balanced : Balanced n env outstanding)
    (calm : env.BeginsToWait process active → env.spawning = false)
    (isStep : proceed self process env active = some result) :
    Balanced n result.2.1 (outstanding + result.2.2.countP (Concerns self)) ∧
      ∀ pid, pid ≠ self → result.2.2.countP (Concerns pid) = 0 := by
  cases isPc : env.pc with
  | idle => simp [Environment.proceed, isPc] at isStep
  | trial tag probed trials =>
      simp only [Environment.proceed, isPc, Option.some.injEq] at isStep
      subst isStep
      obtain ⟨after, nothing⟩ := balanced.tryGet isPc calm
      exact ⟨by rw [nothing]; exact after, fun pid _ => nothing pid⟩
  | blocked tag probed trials =>
      simp only [Environment.proceed, isPc] at isStep
      obtain ⟨isToken, isResult⟩ := Option.ite_none_right_eq_some.mp isStep
      cases isResult
      obtain rfl := balanced.answered (by rw [isPc]; rfl)
      have tokens := balanced.tokens
      have notSpawning := balanced.alone (by rw [isPc]; rfl)
      simp only [isPc, Pc.pops, notSpawning, Bool.toNat_false] at tokens
      refine ⟨balanced_of_still (nextTrial_still tag probed trials) ?_ balanced.replies,
        fun _ _ => rfl⟩
      simp only [notSpawning, Bool.toNat_false]
      omega
  | request tag trials =>
      simp only [Environment.proceed, isPc, Option.some.injEq] at isStep
      subst isStep
      refine ⟨?_, fun pid different => (countP_probes self pid tag).trans (if_neg different)⟩
      rw [countP_probes, if_pos rfl]
      exact balanced.requested isPc
  | await tag number trials =>
      simp only [Environment.proceed, isPc] at isStep
      obtain ⟨isToken, isResult⟩ := Option.ite_none_right_eq_some.mp isStep
      cases isResult
      exact ⟨balanced.popped isToken trials isPc, fun _ _ => rfl⟩

theorem Balanced.erased (balanced : Balanced n env outstanding) :
    Balanced n { env with suspended := Function.update env.suspended tag false } outstanding := by
  refine ⟨?_, balanced.replies, balanced.answered, balanced.alone⟩
  have fewer : Env.due { env with suspended := Function.update env.suspended tag false } ≤
      env.due := by
    unfold Env.due
    cases isPc : env.pc with
    | blocked other probed trials => by_cases same : other = tag <;> simp [same]
    | _ => exact le_rfl
  exact (Nat.add_le_add_left fewer _).trans balanced.tokens

omit [DecidableEq Tag] in
theorem Balanced.cleaned (balanced : Balanced n env outstanding) (isTask : 0 < env.cleaners) :
    Balanced n (Env.unblockForPut { env with cleaners := env.cleaners - 1 }) outstanding := by
  refine ⟨?_, balanced.replies, balanced.answered, balanced.alone⟩
  have moved : env.envIsWaiting + 1 + (env.cleaners - 1) = env.envIsWaiting + env.cleaners := by
    omega
  have tokens := balanced.tokens
  rw [← moved] at tokens
  exact tokens

omit [DecidableEq Tag] in
theorem Balanced.left (balanced : Balanced n env outstanding) (isSpawning : env.spawning = true)
    (isToken : 0 < env.envIsWaiting) :
    Balanced n { env with spawning := false, envIsWaiting := env.envIsWaiting - 1 }
      outstanding := by
  have isStill : env.pc.waits = false :=
    Bool.eq_false_iff.mpr fun waits => absurd (balanced.alone waits) (by simp [isSpawning])
  obtain ⟨rfl, tokens⟩ := balanced.still isStill
  rw [isSpawning, Bool.toNat_true] at tokens
  refine balanced_of_still isStill ?_ balanced.replies
  simp only [Bool.toNat_false]
  omega

end Balance

section Runs

variable {s next : State n Tag Item} {pid other : Fin n} {process : Process n Tag Item}
  {env : Env Tag} {sent : Mails n Tag Item} {tuner : Tuner n Tag}

/-- The invariant. -/
structure Inv (s : State n Tag Item) : Prop where
  balanced : ∀ pid, Balanced n (s.env pid) (s.outstanding pid)
  passed : s.failed = false

theorem env_apply (s : State n Tag Item) (pid : Fin n) (process : Process n Tag Item)
    (env : Env Tag) (sent : Mails n Tag Item) :
    (s.apply pid process env sent).env = Function.update s.env pid env := rfl

theorem outstanding_apply (s : State n Tag Item) (pid other : Fin n)
    (process : Process n Tag Item) (env : Env Tag) (sent : Mails n Tag Item) :
    (s.apply pid process env sent).outstanding other =
      s.outstanding other + sent.countP (Concerns other) :=
  List.countP_append

theorem inv_apply (here : Balanced n env (s.outstanding pid + sent.countP (Concerns pid)))
    (elsewhere : ∀ other, other ≠ pid →
      Balanced n (s.env other) (s.outstanding other + sent.countP (Concerns other)))
    (passed : s.failed = false) : Inv (s.apply pid process env sent) := by
  refine ⟨fun other => ?_, passed⟩
  rw [outstanding_apply, env_apply]
  by_cases same : other = pid
  · subst same
    rw [Function.update_self]
    exact here
  · rw [Function.update_of_ne same]
    exact elsewhere other same

theorem Inv.apply_quiet (inv : Inv s) (here : Balanced n env (s.outstanding pid))
    (quiet : ∀ other, sent.countP (Concerns other) = 0) : Inv (s.apply pid process env sent) :=
  inv_apply (by rw [quiet]; exact here)
    (fun other _ => by rw [quiet]; exact inv.balanced other) inv.passed

variable [DecidableEq Tag]

theorem inv_insertAt {tag : Tag} {item : Item} {owner : Fin n}
    (here : Balanced n env (s.outstanding pid))
    (resumed : inserts tuner pid process tag owner →
      Balanced n (env.resume tag) (s.outstanding pid))
    (elsewhere : ∀ other, other ≠ pid → Balanced n (s.env other) (s.outstanding other))
    (passed : s.failed = false) : Inv (s.insertAt tuner pid process env tag item owner) := by
  refine inv_apply ?_ (fun other different => ?_) passed
  · rw [countP_plain]
    split
    · rename_i isInserted
      exact resumed isInserted
    · exact here
  · rw [countP_plain]
    exact elsewhere other different

section Receive

variable [DecidableEq Item] {mail : Mail n Tag Item}

theorem outstanding_take (isSent : (pid, mail) ∈ s.inFlight) (other : Fin n) :
    s.outstanding other =
      (s.take pid mail).outstanding other + if Concerns other (pid, mail) then 1 else 0 :=
  ((List.perm_cons_erase isSent).countP_eq _).trans (List.countP_cons ..)

theorem Inv.take (inv : Inv s) (isSent : (pid, mail) ∈ s.inFlight)
    (aside : ∀ other, Concerns other (pid, mail) = false) : Inv (s.take pid mail) := by
  refine ⟨fun other => ?_, inv.passed⟩
  have balanced := inv.balanced other
  rw [outstanding_take isSent, aside other] at balanced
  exact balanced

theorem Inv.take_reply (inv : Inv s) (isSent : (pid, mail) ∈ s.inFlight)
    (isReply : ∀ other, Concerns other (pid, mail) = decide (pid = other)) :
    Balanced n (s.env pid) ((s.take pid mail).outstanding pid + 1) ∧
      ∀ other, other ≠ pid → Balanced n (s.env other) ((s.take pid mail).outstanding other) := by
  refine ⟨?_, fun other different => ?_⟩
  · have balanced := inv.balanced pid
    rw [outstanding_take isSent, isReply, if_pos (decide_eq_true rfl)] at balanced
    exact balanced
  · have balanced := inv.balanced other
    rw [outstanding_take isSent, isReply, decide_eq_false (Ne.symm different)] at balanced
    exact balanced

omit [DecidableEq Item] in
theorem getRequest_answer (self : Fin n) (process : Process n Tag Item) (tag : Tag)
    (recpnt : Fin n) : (getRequest self process tag recpnt).2 = [] ∨
      ∃ item, (getRequest self process tag recpnt).2 = [(recpnt, .deliver self tag item)] := by
  rcases getRequest_cases self process tag recpnt with
    ⟨item, -, -, isResult⟩ | ⟨-, -, isResult⟩ | ⟨-, isResult⟩ <;> rw [isResult]
  · exact .inr ⟨item, rfl⟩
  · exact .inl rfl
  · exact .inl rfl

omit [DecidableEq Item] in
theorem countP_probeRequest (self : Fin n) (process : Process n Tag Item) (tag : Tag)
    (recpnt other : Fin n) : (probeRequest self process tag recpnt).2.countP (Concerns other) =
      if recpnt = other then 1 else 0 := by
  rcases getRequest_answer self process tag recpnt with isSent | ⟨item, isSent⟩
  · simp only [probeRequest, isSent]
    by_cases same : recpnt = other <;> simp [Concerns, same]
  · simp only [probeRequest, isSent]
    by_cases same : recpnt = other <;> simp [Concerns, same]

theorem Inv.recvMsg (inv : Inv s) (isSent : (pid, mail) ∈ s.inFlight)
    (calm : Calm tuner s (.receive pid mail))
    (isNext : (s.take pid mail).recvMsg tuner pid mail = some next) : Inv next := by
  cases mail with
  | probe tag recpnt =>
      cases isNext
      have replaced : ∀ other, (s.take pid (.probe tag recpnt)).outstanding other +
          (probeRequest pid (s.proc pid) tag recpnt).2.countP (Concerns other) =
            s.outstanding other := by
        intro other
        rw [countP_probeRequest, outstanding_take isSent other]
        simp [Concerns]
      refine inv_apply ?_ (fun other _ => ?_) inv.passed
      · exact (replaced pid).symm ▸ inv.balanced pid
      · exact (replaced other).symm ▸ inv.balanced other
  | unavail =>
      cases isNext
      obtain ⟨here, elsewhere⟩ := inv.take_reply isSent fun _ => rfl
      exact inv_apply here.unavail elsewhere inv.passed
  | message message answers =>
      cases message with
      | request tag recpnt =>
          cases isNext
          have taken := inv.take isSent fun _ => rfl
          exact taken.apply_quiet (taken.balanced pid) fun _ => countP_plain _ _
      | deliver owner tag item =>
          cases isNext
          cases answers with
          | true =>
              obtain ⟨here, elsewhere⟩ := inv.take_reply isSent fun _ => rfl
              obtain ⟨answered, resumed⟩ := here.answer tag
              exact inv_insertAt answered (fun _ => resumed) elsewhere inv.passed
          | false =>
              have taken := inv.take isSent fun _ => rfl
              refine inv_insertAt (taken.balanced pid) (fun isInserted => ?_)
                (fun other _ => taken.balanced other) inv.passed
              exact (taken.balanced pid).resume (calm.resolve_left Bool.false_ne_true isInserted)
      | deliverToOwn tag item =>
          cases isNext
          have taken := inv.take isSent fun _ => rfl
          exact inv_insertAt (taken.balanced pid)
            (fun isInserted => (taken.balanced pid).resume (calm isInserted))
            (fun other _ => taken.balanced other) inv.passed
      | getCounts sender tags enterSafe => cases isNext
      | erase tags enterSafe => cases isNext

omit [DecidableEq Tag] [DecidableEq Item] in
theorem Inv.spawnCleanup (inv : Inv s) (isStill : (s.env pid).pc.waits = false)
    (notSpawning : (s.env pid).spawning = false) :
    Inv { s.apply pid (s.proc pid)
      { s.env pid with spawning := true, cleaners := (s.env pid).cleaners + 1 } [] with
        failed := s.failed || decide ((s.env pid).envIsWaiting ≠ 0) } := by
  have balanced := inv.balanced pid
  obtain ⟨nothing, tokens⟩ := balanced.still isStill
  rw [notSpawning, Bool.toNat_false] at tokens
  have replies := balanced.replies
  rw [nothing] at replies
  have applied : Inv (s.apply pid (s.proc pid)
      { s.env pid with spawning := true, cleaners := (s.env pid).cleaners + 1 } []) := by
    refine inv.apply_quiet ?_ fun _ => rfl
    rw [nothing]
    refine balanced_of_still isStill ?_ replies
    simp only [Bool.toNat_true]
    omega
  refine ⟨applied.balanced, ?_⟩
  have noToken : (s.env pid).envIsWaiting = 0 := by omega
  simp [inv.passed, noToken]

theorem Inv.step {action : Action n Tag Item} (inv : Inv s) (calm : Calm tuner s action)
    (isStep : step tuner s action = some next) : Inv next := by
  cases action with
  | get pid tag =>
      obtain ⟨isIdle, isNext⟩ := Option.ite_none_right_eq_some.mp isStep
      cases isNext
      have balanced := inv.balanced pid
      obtain ⟨nothing, tokens⟩ := balanced.still (by rw [isIdle]; rfl)
      have replies := balanced.replies
      rw [nothing] at replies
      exact inv.apply_quiet (nothing.symm ▸ balanced_of_still rfl tokens replies) fun _ => rfl
  | proceed pid active =>
      obtain ⟨result, isResult, rfl⟩ := Option.map_eq_some_iff.mp isStep
      obtain ⟨here, elsewhere⟩ := (inv.balanced pid).proceed calm isResult
      refine inv_apply here (fun other different => ?_) inv.passed
      rw [elsewhere other different]
      exact inv.balanced other
  | stepGet pid tag =>
      cases isStep
      exact inv.apply_quiet (inv.balanced pid) fun _ => countP_plain _ _
  | put pid tag item =>
      obtain ⟨result, -, rfl⟩ := Option.map_eq_some_iff.mp isStep
      exact inv.apply_quiet (inv.balanced pid) fun _ => countP_plain _ _
  | insert pid tag item owner =>
      obtain ⟨-, isNext⟩ := Option.ite_none_right_eq_some.mp isStep
      cases isNext
      exact inv_insertAt (inv.balanced pid)
        (fun isInserted => (inv.balanced pid).resume (calm isInserted))
        (fun other _ => inv.balanced other) inv.passed
  | erase pid tag =>
      cases isStep
      exact inv.apply_quiet (inv.balanced pid).erased fun _ => rfl
  | receive pid mail =>
      obtain ⟨isSent, isNext⟩ := Option.ite_none_right_eq_some.mp isStep
      exact inv.recvMsg isSent calm isNext
  | spawnCleanup pid =>
      obtain ⟨notSpawning, isNext⟩ := Option.ite_none_left_eq_some.mp isStep
      cases isNext
      exact inv.spawnCleanup calm (Bool.eq_false_iff.mpr notSpawning)
  | clean pid =>
      obtain ⟨isTask, isNext⟩ := Option.ite_none_right_eq_some.mp isStep
      cases isNext
      exact inv.apply_quiet ((inv.balanced pid).cleaned isTask) fun _ => rfl
  | cleaned pid =>
      obtain ⟨⟨isSpawning, isToken⟩, isNext⟩ := Option.ite_none_right_eq_some.mp isStep
      cases isNext
      exact inv.apply_quiet ((inv.balanced pid).left isSpawning isToken) fun _ => rfl

theorem inv_of_reached (reached : Reached (system tuner) (Calm tuner) s) : Inv s := by
  refine Reached.invariant Inv (fun s isStart => ?_)
    (fun _ _ _ _ inv calm isStep => inv.step calm isStep) reached
  subst isStart
  exact ⟨fun _ => balanced_of_still rfl le_rfl rfl, rfl⟩

end Receive

end Runs

/-- In a run of such steps, an environment which does not wait has neither tokens nor a request
which is not answered, a probe is left when all replies have been processed, and the assertion of
`spawn_cleanup` does not fail. -/
theorem tokens_balance [DecidableEq Tag] [DecidableEq Item] (tuner : Tuner n Tag)
    {s : State n Tag Item} (reached : Reached (system tuner) (Calm tuner) s) :
    (∀ pid, (s.env pid).pc.waits = false → (s.env pid).spawning = false →
        s.outstanding pid = 0 ∧ (s.env pid).envIsWaiting = 0) ∧
      (∀ pid, (s.env pid).pc.awaits = false →
        s.outstanding pid = 0 ∧ (s.env pid).replies = n - 1) ∧
      s.failed = false := by
  have inv := inv_of_reached reached
  refine ⟨fun pid isStill notSpawning => ?_, fun pid isLeft => ?_, inv.passed⟩
  · obtain ⟨nothing, tokens⟩ := (inv.balanced pid).still isStill
    rw [notSpawning, Bool.toNat_false] at tokens
    exact ⟨nothing, by omega⟩
  · have nothing := (inv.balanced pid).answered isLeft
    have replies := (inv.balanced pid).replies
    rw [nothing] at replies
    exact ⟨nothing, replies⟩

/-- Items stay where they are put. -/
def anywhere : Tuner 2 Nat where
  consumedOn _ := .single .unknown
  producedOn _ _ := .unknown
  getCount _ := noGetCount
  getCount_le _ := noGetCount_le
  enableGC := 1
  enableGC_pos := Nat.one_pos

/-- A probe finds item 7 on the other process, and `spawn_cleanup` is called thereafter. -/
def probeFinds : List (Action 2 Nat Nat) :=
  [.put 1 7 5, .insert 1 7 5 1, .get 0 7, .proceed 0 false, .proceed 0 false,
    .receive 1 (.probe 7 0), .receive 0 (.message (.deliver 1 7 5) true), .proceed 0 false,
    .proceed 0 false, .spawnCleanup 0, .clean 0, .cleaned 0]

theorem tokens_balance_probeFinds :
    ∃ s : State 2 Nat Nat, Reached (system anywhere) (Calm anywhere) s ∧
      (s.env 0).pc = .idle ∧ (s.env 0).replies = 1 ∧ (s.env 0).envIsWaiting = 0 ∧
      s.failed = false := by
  have reached : Reached (system anywhere) (Calm anywhere) _ :=
    Reached.run (.initial rfl) probeFinds rfl
  obtain ⟨noTokens, replied, passed⟩ := tokens_balance anywhere reached
  exact ⟨_, reached, rfl, (replied 0 rfl).2, (noTokens 0 rfl rfl).2, passed⟩

def lateItem : List (Action 2 Nat Nat) :=
  [.get 0 7, .proceed 0 false, .proceed 0 false, .receive 1 (.probe 7 0), .receive 0 .unavail,
    .proceed 0 false, .put 1 7 5, .insert 1 7 5 1, .receive 0 (.message (.deliver 1 7 5) false)]

/-- The item resumes the environment, which does not wait any more, and the token is left. -/
theorem token_left :
    ¬ ∀ s : State 2 Nat Nat, Reachable (system anywhere) s → ∀ pid,
      (s.env pid).pc.waits = false → (s.env pid).spawning = false → s.inFlight = [] →
        (s.env pid).envIsWaiting = 0 := by
  intro always
  have reached : Reachable (system anywhere) _ := Reached.run (.initial rfl) lateItem rfl
  have noToken := always _ reached 0 rfl rfl rfl
  cases noToken

end CnC.Item.Environment
