import CnC.Library.Network
import CnC.Library.Transition

/-!
# Tag collections on several processes

A tag collection prescribes step collections.  A put creates a step instance of
each of them, unless the tag table remembers the tag, and passes it on to the
process which `compute_on` names; there a TAG message puts the tag again, for
the one step collection only.  The table keeps a bit for each step collection.

The insertion into the tag table is atomic.  The instances are created after
it, one prescribed step collection after the other, and then the callbacks are
called; other puts and messages may come in between.
-/

namespace CnC.Tag

open Network Transition

universe u

variable {n k m : Nat} {Tag : Type u}

/-- `hash_tag_table`. -/
abbrev TagTable (Tag : Type u) := Tag → Option (BitVec 32)

def TagTable.bits (table : TagTable Tag) (tag : Tag) : BitVec 32 :=
  (table tag).getD 0

/-- `hash_tag_table::insert`, which returns the bits of the mask that were
already set. -/
def TagTable.insert [DecidableEq Tag] (table : TagTable Tag) (tag : Tag) (mask : BitVec 32) :
    TagTable Tag × BitVec 32 :=
  (Function.update table tag (some (table.bits tag ||| mask)), table.bits tag &&& mask)

/-- The default mask of `Put`, for the puts by users. -/
def userMask : BitVec 32 := -1

/-- The id which `addPrescribedCollection` gives to a step collection. -/
def stepId (coll : Fin k) : BitVec 32 :=
  1#32 <<< coll.val

/-- `m_allMask`, once all step collections have been prescribed. -/
def allMask (k : Nat) : BitVec 32 :=
  (List.finRange k).foldl (fun mask coll => mask ||| stepId coll) 0

/-- The answer of `compute_on`.  Any value which is not listed here is treated
as the one for round robin. -/
inductive ComputeOn (n : Nat) where
  | pid (process : Fin n)
  | here
  | roundRobin
  | all
  | allOthers
  deriving DecidableEq

/-- The step tuners of the prescribed step collections, and whether the context
is distributed; it is if there are several processes. -/
structure Tuner (n k : Nat) (Tag : Type u) where
  computeOn : Fin n → Fin k → Tag → ComputeOn n
  distributed : Bool
  distributed_of_several : 1 < n → distributed = true

inductive Target (n : Nat) where
  | pid (process : Fin n)
  | all
  | allOthers
  deriving DecidableEq

/-- `get_target_pid`; `next` is what `round_robin_next` returns in the thread. -/
def getTargetPid (self next : Fin n) : ComputeOn n → Target n
  | .pid process => .pid process
  | .here => .pid self
  | .roundRobin => .pid next
  | .all => .all
  | .allOthers => .allOthers

/-- `create_step_instance` with `scheduler_i::prepare`: whether the instance is
kept on this process, and the processes it is passed on to. -/
def createStepInstance (tuner : Tuner n k Tag) (self : Fin n) (coll : Fin k) (tag : Tag)
    (computeOn : Bool) (next : Fin n) : Bool × List (Fin n) :=
  if computeOn && tuner.distributed then
    match getTargetPid self next (tuner.computeOn self coll tag) with
    | .pid target => if target = self then (true, []) else (false, [target])
    | .all => (true, others self)
    | .allOthers => (false, others self)
  else (true, [])

/-- A call of `Put` which has inserted the tag: the bits found, and the
prescribed step collections which the loop has still to visit. -/
structure PutCall (k : Nat) (Tag : Type u) where
  tag : Tag
  mask : BitVec 32
  found : BitVec 32
  rest : List (Fin k)
  deriving DecidableEq

/-- `created` lists the step instances created for execution on the process. -/
structure Process (k : Nat) (Tag : Type u) where
  table : TagTable Tag
  calls : List (PutCall k Tag)
  created : List (Tag × Fin k)

structure Msg (k : Nat) (Tag : Type u) where
  tag : Tag
  coll : Fin k
  deriving DecidableEq

/-- `onPuts` lists the executed callbacks and `puts` the puts by users, with the
processes on which they were made. -/
structure State (n k m : Nat) (Tag : Type u) where
  proc : Fin n → Process k Tag
  chan : Channels (Fin n) (Msg k Tag)
  onPuts : List (Fin n × Fin m × Tag)
  puts : List (Fin n × Tag)

inductive Action (n k : Nat) (Tag : Type u) where
  | put (pid : Fin n) (tag : Tag)
  | visit (pid : Fin n) (call : PutCall k Tag) (next : Fin n)
  | finish (pid : Fin n) (call : PutCall k Tag)
  | receive (source target : Fin n) (message : Msg k Tag)

section Steps

variable [DecidableEq Tag]

/-- The insertion at the start of `Put`, and the test whether there is anything
to do. -/
def Process.put (process : Process k Tag) (tag : Tag) (mask : BitVec 32) : Process k Tag :=
  let (table, found) := process.table.insert tag mask
  if found ≠ mask &&& allMask k ∨ allMask k = 0 then
    { process with table, calls := ⟨tag, mask, found, List.finRange k⟩ :: process.calls }
  else { process with table }

/-- The test in the loop: the step collection is meant, and its bit was not
set. -/
def PutCall.creates (call : PutCall k Tag) (coll : Fin k) : Bool :=
  call.mask &&& allMask k &&& stepId coll ≠ 0 ∧ call.found &&& stepId coll = 0

/-- One iteration of the loop over the prescribed step collections, with the
processes to which a TAG message is sent. -/
def Process.visit (tuner : Tuner n k Tag) (self : Fin n) (process : Process k Tag)
    (call : PutCall k Tag) (coll : Fin k) (rest : List (Fin k)) (next : Fin n) :
    Process k Tag × List (Fin n) :=
  let calls := { call with rest } :: process.calls.erase call
  if call.creates coll then
    let (here, receivers) := createStepInstance tuner self coll call.tag (call.mask = userMask) next
    ({ process with calls, created := if here then (call.tag, coll) :: process.created
        else process.created }, receivers)
  else ({ process with calls }, [])

def State.setProc (s : State n k m Tag) (pid : Fin n) (process : Process k Tag) :
    State n k m Tag :=
  { s with proc := Function.update s.proc pid process }

def callbacks (m : Nat) (pid : Fin n) (tag : Tag) : List (Fin n × Fin m × Tag) :=
  (List.finRange m).map fun callback => (pid, callback, tag)

def step (tuner : Tuner n k Tag) (s : State n k m Tag) :
    Action n k Tag → Option (State n k m Tag)
  | .put pid tag =>
      some { s.setProc pid ((s.proc pid).put tag userMask) with puts := (pid, tag) :: s.puts }
  | .visit pid call next =>
      match call.rest with
      | [] => none
      | coll :: rest =>
          if call ∈ (s.proc pid).calls then
            let (process, receivers) := (s.proc pid).visit tuner pid call coll rest next
            some { s.setProc pid process with
              chan := s.chan.post pid receivers ⟨call.tag, coll⟩ }
          else none
  | .finish pid call =>
      if call ∈ (s.proc pid).calls ∧ call.rest = [] then
        some { s.setProc pid { s.proc pid with calls := (s.proc pid).calls.erase call } with
          onPuts := if call.found = 0 then callbacks m pid call.tag ++ s.onPuts else s.onPuts }
      else none
  | .receive source target message =>
      if message ∈ s.chan source target then
        some { s.setProc target ((s.proc target).put message.tag (stepId message.coll)) with
          chan := s.chan.setQueue source target ((s.chan source target).erase message) }
      else none

def start (n k m : Nat) (Tag : Type u) : State n k m Tag where
  proc _ := { table := fun _ => none, calls := [], created := [] }
  chan _ _ := []
  onPuts := []
  puts := []

def system (tuner : Tuner n k Tag) : System (State n k m Tag) (Action n k Tag) where
  Initial s := s = start n k m Tag
  step := step tuner

end Steps

/-- No put is going on and no message is on its way. -/
def Quiescent (s : State n k m Tag) : Prop :=
  (∀ pid, (s.proc pid).calls = []) ∧ s.chan.Empty

instance [DecidableEq Tag] (s : State n k m Tag) : Decidable (Quiescent s) :=
  inferInstanceAs (Decidable (_ ∧ _))

theorem State.setProc_proc (s : State n k m Tag) (pid p : Fin n) (process : Process k Tag) :
    (s.setProc pid process).proc p = if p = pid then process else s.proc p := by
  by_cases same : p = pid <;> simp [State.setProc, same]

theorem getLsbD_stepId (coll : Fin k) {i : Nat} (small : i < 32) :
    (stepId coll).getLsbD i = decide (i = coll.val) := by
  rw [stepId, BitVec.getLsbD_shiftLeft, BitVec.getLsbD_one]
  simp only [small, decide_true, Bool.true_and]
  by_cases below : i < coll.val
  · have different : i ≠ coll.val := by omega
    simp [below, different]
  · by_cases same : i = coll.val
    · simp [same]
    · have later : i - coll.val ≠ 0 := by omega
      simp [same, later]

theorem and_stepId_eq_zero (mask : BitVec 32) {coll : Fin k} (small : coll.val < 32) :
    mask &&& stepId coll = 0 ↔ mask.getLsbD coll = false := by
  constructor
  · intro disjoint
    have bit := congrArg (fun bits => bits.getLsbD coll) disjoint
    simpa [getLsbD_stepId coll small] using bit
  · intro unset
    apply BitVec.eq_of_getLsbD_eq
    intro i bound
    rw [BitVec.getLsbD_and, getLsbD_stepId coll bound]
    by_cases same : i = coll.val
    · simp [same, unset]
    · simp [same]

theorem getLsbD_foldl_or (colls : List (Fin k)) (mask : BitVec 32) {i : Nat} (small : i < 32) :
    (colls.foldl (fun mask coll => mask ||| stepId coll) mask).getLsbD i =
      (mask.getLsbD i || colls.any fun coll => decide (i = coll.val)) := by
  induction colls generalizing mask with
  | nil => simp
  | cons coll rest inductionHypothesis =>
      rw [List.foldl_cons, inductionHypothesis, BitVec.getLsbD_or, getLsbD_stepId coll small,
        List.any_cons, Bool.or_assoc]

theorem getLsbD_allMask {coll : Fin k} (small : coll.val < 32) :
    (allMask k).getLsbD coll = true := by
  rw [allMask, getLsbD_foldl_or _ _ small, Bool.or_eq_true]
  exact .inr (List.any_eq_true.mpr ⟨coll, List.mem_finRange coll, by simp⟩)

theorem getLsbD_userMask {i : Nat} (small : i < 32) : userMask.getLsbD i = true := by
  have allOnes : userMask = BitVec.allOnes 32 := by decide
  rw [allOnes, BitVec.getLsbD_allOnes, decide_eq_true small]

/-- A call creates an instance of the step collections which its mask names and
which were not found. -/
theorem PutCall.creates_iff (call : PutCall k Tag) {coll : Fin k} (small : coll.val < 32) :
    call.creates coll = true ↔
      call.mask.getLsbD coll = true ∧ call.found.getLsbD coll = false := by
  rw [PutCall.creates, decide_eq_true_eq, ne_eq, and_stepId_eq_zero _ small,
    and_stepId_eq_zero _ small, BitVec.getLsbD_and, getLsbD_allMask small]
  simp

end CnC.Tag
