import CnC.Tag.Collection

/-!
# The process which executes an instance

The tuner answers `compute_on` with the number of a process or with one of several special
values, all of them integers.  An instance is kept, passed on to other processes, or both.
A process which receives an instance does not ask the tuner again.
-/

namespace CnC.Scheduler

open Network

variable {n : Nat}

def computeOnLocal : Int := -2

def computeOnRoundRobin : Int := -3

def computeOnAll : Int := -4

def computeOnAllOthers : Int := -5

def noComputeOn : Int := -77777

/-- `round_robin_next`, with the variable `s_currP` of the thread. -/
def roundRobinNext (numP : Nat) (currP : BitVec 32) : Int × BitVec 32 :=
  ((currP + 1).toInt.tmod numP, currP + 1)

/-- `get_target_pid`. -/
def getTargetPid (self : Fin n) (pot : Int) (currP : BitVec 32) : Int × BitVec 32 :=
  if pot ≠ computeOnLocal ∧ pot ≠ self.val ∧ pot ≠ computeOnAll ∧ pot ≠ computeOnAllOthers then
    if pot < 0 ∨ pot ≥ n then roundRobinNext n currP else (pot, currP)
  else if pot = computeOnLocal then (self.val, currP)
  else (pot, currP)

/-- A step instance, or a range step instance. -/
inductive Kind where
  | tag
  | range
  deriving DecidableEq

/-- `CNC_Success`, `CNC_Unfinished`, `CNC_NeedsSequentialize` and `CNC_Prepared`. -/
inductive Prepared where
  | success
  | unfinished
  | needsSequentialize
  | prepared
  deriving DecidableEq

/-- What `prepare` of an instance does on a process which executes it: its result, and whether
it has executed the instance. -/
structure Preparation where
  result : Prepared
  done : Bool

/-- `prepare_compute_on`: whether the process executes the instance, and `passOnTo`. -/
def prepareComputeOn (self : Fin n) (passOnTo pot : Int) (currP : BitVec 32) :
    Bool × Int × BitVec 32 :=
  if passOnTo ≠ noComputeOn then
    let asked := getTargetPid self pot currP
    if asked.1 ≠ self.val then (false, asked) else (true, passOnTo, asked.2)
  else (true, passOnTo, currP)

/-- `prepare` of an instance, with `passOnTo`.  It ends early if the process does not execute the
instance. -/
def prepareInstance (self : Fin n) (own : Preparation) (passOnTo pot : Int)
    (currP : BitVec 32) : Option Preparation × Int × BitVec 32 :=
  let asked := prepareComputeOn self passOnTo pot currP
  (if asked.1 then some own else none, asked.2)

/-- What `prepare` of an instance returns. -/
def returned (kind : Kind) : Option Preparation → Prepared
  | some own => own.result
  | none => if kind = .tag then .success else .unfinished

/-- `step_launcher::compute_on` and `compute_on_range`, with the receivers of the message. -/
def sendTo (self : Fin n) (kind : Kind) (target : Int) : List Int :=
  match kind with
  | .tag =>
      if target = computeOnAll ∨ target = computeOnAllOthers then
        (others self).map fun (pid : Fin n) => (pid.val : Int)
      else [target]
  | .range => [target]

/-- What becomes of an instance: it is deleted after it was passed on, or it is executed on
this process, if not in `prepare` then because it is scheduled or resumed.  An instance whose
`prepare` has ended early is left alone if `passOnTo` is taken for `noComputeOn`. -/
inductive Fate where
  | passedOn
  | sequentialized
  | scheduled
  | executed
  | suspended
  | left

def Fate.here : Fate → Bool
  | .passedOn | .left => false
  | .sequentialized | .scheduled | .executed | .suspended => true

/-- What `scheduler_i::prepare` does after `prepare` of the instance. -/
def finishPrepare (self : Fin n) (kind : Kind) (preparation : Option Preparation)
    (passOnTo : Int) : Fate × List Int :=
  if passOnTo ≠ noComputeOn ∧ passOnTo ≠ self.val ∧ passOnTo ≠ computeOnAll then
    (.passedOn, sendTo self kind passOnTo)
  else
    let sends :=
      if passOnTo ≠ noComputeOn ∧ passOnTo ≠ self.val then sendTo self kind passOnTo else []
    if returned kind preparation = .needsSequentialize then (.sequentialized, sends)
    else if returned kind preparation = .prepared ∨ passOnTo = computeOnAll then
      (.scheduled, sends)
    else
      match preparation with
      | none => (.left, sends)
      | some own => (if own.done then .executed else .suspended, sends)

/-- `scheduler_i::prepare`: the fate of the instance, and the receivers of messages. -/
def prepare (self : Fin n) (distributed : Bool) (kind : Kind) (own : Preparation)
    (computeOn : Bool) (pot : Int) (currP : BitVec 32) : (Fate × List Int) × BitVec 32 :=
  let prepared := prepareInstance self own
    (if computeOn && distributed then self.val else noComputeOn) pot currP
  (finishPrepare self kind prepared.1 prepared.2.1, prepared.2.2)

/-- `recv_msg` of a step launcher: the tuner is not asked.  No instance is created for a tag
which the tag table of the process remembers, if there is one. -/
def recvMsg (self : Fin n) (kind : Kind) (own : Preparation) (found : Bool) (pot : Int)
    (currP : BitVec 32) : Option (Fate × List Int) :=
  if kind = .tag ∧ found then none
  else some (prepare self true kind own false pot currP).1

/-- What the processes bring to the instance: the result of its preparation, and the variable of
the thread which prepares it.  If the tag table has the bit of the step collection, then it was
set when the process created an instance of its own for the tag, with this fate. -/
structure Local where
  own : Preparation
  earlier : Option Fate
  currP : BitVec 32

/-- The process has the bit in its tag table and does not execute the instance all the same: a
put of its own has passed the instance on. -/
def Local.drops (process : Local) (kind : Kind) : Bool :=
  kind = .tag && process.earlier.any fun fate => !fate.here

variable {locals : Fin n → Local} {self i : Fin n} {kind : Kind} {pot : Int}

/-- How often a process executes the instance because of the given number of messages, where
the instance which it has created for the tag itself counts as the one of the message. -/
def received (locals : Fin n → Local) (kind : Kind) (pot : Int) (i : Fin n) (messages : Nat) :
    Nat :=
  match recvMsg i kind (locals i).own (locals i).earlier.isSome pot (locals i).currP with
  | some (fate, _) => if fate.here then messages else 0
  | none => if (locals i).earlier.any Fate.here then messages else 0

def executions (locals : Fin n → Local) (self : Fin n) (kind : Kind) (pot : Int)
    (result : Fate × List Int) (i : Fin n) : Nat :=
  (if i = self ∧ result.1.here then 1 else 0) +
    received locals kind pot i (result.2.count (i.val : Int))

/-- The processes which are to execute the instance.  For other answers of the tuner it is an
arbitrary one. -/
def IsTarget (self : Fin n) (pot : Int) (arbitrary i : Fin n) : Prop :=
  if 0 ≤ pot ∧ pot < n then (i.val : Int) = pot
  else if pot = computeOnLocal then i = self
  else if pot = computeOnAll then True
  else if pot = computeOnAllOthers then i ≠ self
  else i = arbitrary

/-- The instance is executed once by the processes which are to execute it, and no message is
sent to another address. -/
def Routed (locals : Fin n → Local) (self : Fin n) (kind : Kind) (pot : Int) : Prop :=
  let result := (prepare self true kind (locals self).own true pot (locals self).currP).1
  (∀ target ∈ result.2, ∃ i : Fin n, i ≠ self ∧ target = i.val) ∧
    ∃ arbitrary, ∀ i,
      (IsTarget self pot arbitrary i → executions locals self kind pot result i = 1) ∧
      (¬ IsTarget self pot arbitrary i → executions locals self kind pot result i = 0)

/-- The tuner answers neither with a process nor with one of the values which tell what to
do. -/
def IsOther (n : Nat) (pot : Int) : Prop :=
  (pot < 0 ∨ pot ≥ n) ∧ pot ≠ computeOnLocal ∧ pot ≠ computeOnAll ∧ pot ≠ computeOnAllOthers

/-- The next process of the round robin, which does not drop the instance.  A negative remainder
is no process; if it is taken for one of the values which tell what to do, it may still be that
a single process does not drop the instance. -/
def OneProcess (locals : Fin n → Local) (self : Fin n) (kind : Kind) (next : Int) : Prop :=
  0 ≤ next ∧ (∀ i, i ≠ self → next = i.val → (locals i).drops kind = false) ∨
    kind = .tag ∧ next = computeOnAll ∧ (∀ i, i ≠ self → (locals i).drops kind = true) ∨
    kind = .tag ∧ next = computeOnAllOthers ∧ ∃! i, i ≠ self ∧ (locals i).drops kind = false

/-- The answer of the tuner suits the kind of the instance, and the processes to which the
instance is sent do not drop it. -/
structure Routable (locals : Fin n → Local) (origin : Fin n) (kind : Kind) (pot : Int) : Prop where
  process : ∀ i, i ≠ origin → pot = i.val → (locals i).drops kind = false
  special : pot = computeOnAll ∨ pot = computeOnAllOthers →
    kind = .tag ∧ ∀ i, i ≠ origin → (locals i).drops kind = false
  other : IsOther n pot →
    OneProcess locals origin kind (((locals origin).currP + 1).toInt.tmod n)

theorem getTargetPid_pid (self target : Fin n) (currP : BitVec 32) :
    getTargetPid self target.val currP = ((target.val : Int), currP) := by
  have notLocal : (target.val : Int) ≠ computeOnLocal := by
    simp only [computeOnLocal]
    omega
  rw [getTargetPid]
  split
  · rw [if_neg (by omega)]
  · rfl

theorem getTargetPid_local (self : Fin n) (currP : BitVec 32) :
    getTargetPid self computeOnLocal currP = ((self.val : Int), currP) := by
  simp [getTargetPid]

theorem getTargetPid_all (self : Fin n) (currP : BitVec 32) :
    getTargetPid self computeOnAll currP = (computeOnAll, currP) := by
  simp [getTargetPid, computeOnAll, computeOnLocal]

theorem getTargetPid_allOthers (self : Fin n) (currP : BitVec 32) :
    getTargetPid self computeOnAllOthers currP = (computeOnAllOthers, currP) := by
  simp [getTargetPid, computeOnAllOthers, computeOnLocal]

theorem getTargetPid_other (self : Fin n) (other : IsOther n pot) (currP : BitVec 32) :
    getTargetPid self pot currP = roundRobinNext n currP := by
  obtain ⟨outside, notLocal, notAll, notAllOthers⟩ := other
  rw [getTargetPid, if_pos ⟨notLocal, by omega, notAll, notAllOthers⟩, if_pos outside]

theorem finishPrepare_kept (self : Fin n) (kind : Kind) (own : Preparation) {passOnTo : Int}
    (kept : passOnTo = noComputeOn ∨ passOnTo = self.val) :
    ∃ fate, finishPrepare self kind (some own) passOnTo = (fate, []) ∧ fate.here = true := by
  have notPassed : ¬ (passOnTo ≠ noComputeOn ∧ passOnTo ≠ self.val) := by omega
  have notAll : passOnTo ≠ computeOnAll := by
    simp only [noComputeOn, computeOnAll] at kept ⊢
    omega
  rw [finishPrepare, if_neg fun passed => notPassed ⟨passed.1, passed.2.1⟩, if_neg notPassed]
  obtain ⟨result, done⟩ := own
  cases result <;> cases done <;> simp [returned, notAll, Fate.here]

theorem prepare_received (self : Fin n) (kind : Kind) (own : Preparation) (pot : Int)
    (currP : BitVec 32) :
    ∃ fate, prepare self true kind own false pot currP = ((fate, []), currP) ∧
      fate.here = true := by
  have kept : prepare self true kind own false pot currP =
      (finishPrepare self kind (some own) noComputeOn, currP) := rfl
  obtain ⟨fate, isFinished, here⟩ := finishPrepare_kept self kind own (.inl rfl)
  exact ⟨fate, by rw [kept, isFinished], here⟩

theorem received_eq (locals : Fin n → Local) (kind : Kind) (pot : Int) (i : Fin n)
    (messages : Nat) :
    received locals kind pot i messages = if (locals i).drops kind then 0 else messages := by
  obtain ⟨fate, isPrepared, here⟩ :=
    prepare_received i kind (locals i).own pot (locals i).currP
  rw [received, recvMsg, isPrepared]
  cases kind with
  | range => simp [Local.drops, here]
  | tag =>
      cases isEarlier : (locals i).earlier with
      | none => simp [Local.drops, isEarlier, here]
      | some earlier => cases isHere : earlier.here <;> simp [Local.drops, isEarlier, isHere]

theorem prepare_eq (self : Fin n) (kind : Kind) (own : Preparation) (pot : Int)
    (currP : BitVec 32) :
    prepare self true kind own true pot currP =
      (if (getTargetPid self pot currP).1 = self.val then
          finishPrepare self kind (some own) self.val
        else finishPrepare self kind none (getTargetPid self pot currP).1,
        (getTargetPid self pot currP).2) := by
  have asked : (self.val : Int) ≠ noComputeOn := by
    simp only [noComputeOn]
    omega
  simp only [prepare, prepareInstance, prepareComputeOn, Bool.and_self, if_true, if_pos asked]
  by_cases same : (getTargetPid self pot currP).1 = self.val <;> simp [same]

theorem prepare_self {currP next : BitVec 32} (kind : Kind) (own : Preparation)
    (isTarget : getTargetPid self pot currP = ((self.val : Int), next)) :
    ∃ fate, prepare self true kind own true pot currP = ((fate, []), next) ∧
      fate.here = true := by
  obtain ⟨fate, isFinished, here⟩ := finishPrepare_kept self kind own (.inr rfl)
  exact ⟨fate, by rw [prepare_eq, isTarget, if_pos rfl, isFinished], here⟩

theorem prepare_passedOn {target : Int} {currP next : BitVec 32} (kind : Kind)
    (own : Preparation) (isTarget : getTargetPid self pot currP = (target, next))
    (notSelf : target ≠ self.val) (notAll : target ≠ computeOnAll)
    (isAny : target ≠ noComputeOn) :
    prepare self true kind own true pot currP =
      ((.passedOn, sendTo self kind target), next) := by
  rw [prepare_eq, isTarget, if_neg notSelf, finishPrepare, if_pos ⟨isAny, notSelf, notAll⟩]

theorem prepare_all {currP next : BitVec 32} (kind : Kind) (own : Preparation)
    (isTarget : getTargetPid self pot currP = (computeOnAll, next)) :
    prepare self true kind own true pot currP =
      ((.scheduled, sendTo self kind computeOnAll), next) := by
  have notSelf : computeOnAll ≠ (self.val : Int) := by
    simp only [computeOnAll]
    omega
  have isAny : computeOnAll ≠ noComputeOn := by decide
  rw [prepare_eq, isTarget, if_neg notSelf, finishPrepare, if_neg (by simp)]
  cases kind <;> simp [returned, isAny, notSelf]

theorem prepare_left {currP next : BitVec 32} (kind : Kind) (own : Preparation)
    (isTarget : getTargetPid self pot currP = (noComputeOn, next)) :
    prepare self true kind own true pot currP = ((.left, []), next) := by
  have notSelf : noComputeOn ≠ (self.val : Int) := by
    simp only [noComputeOn]
    omega
  rw [prepare_eq, isTarget, if_neg notSelf, finishPrepare, if_neg (by simp)]
  cases kind <;> simp [returned, noComputeOn, computeOnAll]

def addresses (pids : List (Fin n)) : List Int :=
  pids.map fun (pid : Fin n) => (pid.val : Int)

theorem count_addresses (pids : List (Fin n)) (i : Fin n) :
    (addresses pids).count (i.val : Int) = pids.count i := by
  have injective : Function.Injective fun (pid : Fin n) => (pid.val : Int) :=
    fun first second same => Fin.ext (Int.ofNat_inj.mp same)
  exact List.count_map_of_injective pids _ injective i

/-- If messages are sent to these processes, then the targets have to be those of them which do
not drop the instance, and the process itself if it keeps the instance. -/
theorem routed_iff_of_addresses (pids : List (Fin n)) {fate : Fate} {next : BitVec 32}
    (isPrepared : prepare self true kind (locals self).own true pot (locals self).currP =
      ((fate, addresses pids), next))
    (nodup : pids.Nodup) (notSelf : self ∉ pids) :
    Routed locals self kind pot ↔ ∃ arbitrary, ∀ i, IsTarget self pot arbitrary i ↔
      i ∈ pids ∧ (locals i).drops kind = false ∨ i = self ∧ fate.here = true := by
  have valid : ∀ target ∈ addresses pids, ∃ i : Fin n, i ≠ self ∧ target = i.val := by
    intro target isSent
    obtain ⟨i, isMember, same⟩ := List.mem_map.mp isSent
    exact ⟨i, ne_of_mem_of_not_mem isMember notSelf, same.symm⟩
  have executed (i : Fin n) : executions locals self kind pot (fate, addresses pids) i =
      if i ∈ pids ∧ (locals i).drops kind = false ∨ i = self ∧ fate.here = true then 1 else 0 := by
    rw [executions, received_eq, count_addresses]
    by_cases isSelf : i = self
    · subst isSelf
      simp [notSelf, List.count_eq_zero_of_not_mem notSelf]
    · by_cases isMember : i ∈ pids
      · have once : pids.count i = 1 := List.count_eq_one_of_mem nodup isMember
        cases (locals i).drops kind <;> simp [isSelf, isMember, once]
      · simp [isSelf, isMember, List.count_eq_zero_of_not_mem isMember]
  simp only [Routed, isPrepared, and_iff_right valid, executed]
  refine exists_congr fun arbitrary => forall_congr' fun i => ?_
  by_cases runs : i ∈ pids ∧ (locals i).drops kind = false ∨ i = self ∧ fate.here = true <;>
    simp [runs]

theorem sendTo_pid (self target : Fin n) (kind : Kind) :
    sendTo self kind target.val = addresses [target] := by
  have notAll : ¬ ((target.val : Int) = computeOnAll ∨
      (target.val : Int) = computeOnAllOthers) := by
    simp only [computeOnAll, computeOnAllOthers]
    omega
  cases kind with
  | tag =>
      rw [sendTo, if_neg notAll]
      rfl
  | range => rfl

theorem prepare_pid {target : Fin n} {currP next : BitVec 32} (kind : Kind) (own : Preparation)
    (notSelf : target ≠ self)
    (isTarget : getTargetPid self pot currP = ((target.val : Int), next)) :
    prepare self true kind own true pot currP = ((.passedOn, addresses [target]), next) := by
  have different : (target.val : Int) ≠ self.val := by
    simpa [Fin.val_inj] using notSelf
  have special : (target.val : Int) ≠ computeOnAll ∧ (target.val : Int) ≠ noComputeOn := by
    simp only [computeOnAll, noComputeOn]
    omega
  rw [prepare_passedOn kind own isTarget different special.1 special.2, sendTo_pid]

theorem routed_pid_iff {target : Fin n} {next : BitVec 32}
    (isTarget : getTargetPid self pot (locals self).currP = ((target.val : Int), next)) :
    Routed locals self kind pot ↔ ∃ arbitrary, ∀ i, IsTarget self pot arbitrary i ↔
      i = target ∧ (target ≠ self → (locals target).drops kind = false) := by
  by_cases same : target = self
  · subst same
    obtain ⟨fate, isPrepared, here⟩ := prepare_self kind (locals target).own isTarget
    rw [routed_iff_of_addresses [] isPrepared .nil (by simp)]
    simp [here]
  · have isPrepared := prepare_pid kind (locals self).own same isTarget
    rw [routed_iff_of_addresses _ isPrepared (List.nodup_singleton target)
      (by simpa using Ne.symm same)]
    refine exists_congr fun arbitrary => forall_congr' fun i => ?_
    simp only [List.mem_singleton, Fate.here, Bool.false_eq_true, and_false, or_false]
    rw [and_congr_right_iff.mpr]
    rintro rfl
    simp [same]

theorem not_routed_of_invalid {target : Int} {fate : Fate} {sends : List Int} {next : BitVec 32}
    (isPrepared : prepare self true kind (locals self).own true pot (locals self).currP =
      ((fate, sends), next)) (isSent : target ∈ sends) (negative : target < 0) :
    ¬ Routed locals self kind pot := by
  rintro ⟨valid, -⟩
  rw [isPrepared] at valid
  obtain ⟨i, -, same⟩ := valid target isSent
  omega

theorem not_routed_range {target : Int} {next : BitVec 32}
    (isTarget : getTargetPid self pot (locals self).currP = (target, next))
    (special : target = computeOnAll ∨ target = computeOnAllOthers) :
    ¬ Routed locals self .range pot := by
  rcases special with rfl | rfl
  · exact not_routed_of_invalid (prepare_all .range _ isTarget) (List.mem_singleton_self _)
      (by decide)
  · have notSelf : computeOnAllOthers ≠ (self.val : Int) := by
      simp only [computeOnAllOthers]
      omega
    exact not_routed_of_invalid
      (prepare_passedOn .range _ isTarget notSelf (by decide) (by decide))
      (List.mem_singleton_self _) (by decide)

theorem routed_all_iff {next : BitVec 32}
    (isTarget : getTargetPid self pot (locals self).currP = (computeOnAll, next)) :
    Routed locals self .tag pot ↔ ∃ arbitrary, ∀ i, IsTarget self pot arbitrary i ↔
      (i ≠ self → (locals i).drops .tag = false) := by
  have isPrepared := prepare_all .tag (locals self).own isTarget
  rw [routed_iff_of_addresses _ isPrepared (nodup_others self) (by simp [mem_others])]
  refine exists_congr fun arbitrary => forall_congr' fun i => ?_
  by_cases isSelf : i = self <;> simp [mem_others, Fate.here, isSelf]

theorem routed_allOthers_iff {next : BitVec 32}
    (isTarget : getTargetPid self pot (locals self).currP = (computeOnAllOthers, next)) :
    Routed locals self .tag pot ↔ ∃ arbitrary, ∀ i, IsTarget self pot arbitrary i ↔
      i ≠ self ∧ (locals i).drops .tag = false := by
  have notSelf : computeOnAllOthers ≠ (self.val : Int) := by
    simp only [computeOnAllOthers]
    omega
  have isPrepared :=
    prepare_passedOn .tag (locals self).own isTarget notSelf (by decide) (by decide)
  rw [routed_iff_of_addresses _ isPrepared (nodup_others self) (by simp [mem_others])]
  simp [mem_others, Fate.here]

theorem isTarget_other (other : IsOther n pot) (arbitrary : Fin n) :
    IsTarget self pot arbitrary i ↔ i = arbitrary := by
  obtain ⟨outside, notLocal, notAll, notAllOthers⟩ := other
  rw [IsTarget, if_neg (by omega), if_neg notLocal, if_neg notAll, if_neg notAllOthers]

theorem routed_other_iff (other : IsOther n pot) :
    Routed locals self kind pot ↔
      OneProcess locals self kind (((locals self).currP + 1).toInt.tmod n) := by
  have isTarget := getTargetPid_other self other (locals self).currP
  rw [roundRobinNext] at isTarget
  have below : (((locals self).currP + 1).toInt.tmod n) < n :=
    Int.tmod_lt_of_pos _ (Int.natCast_pos.mpr self.pos)
  generalize ((locals self).currP + 1).toInt.tmod n = next at isTarget below ⊢
  by_cases negative : next < 0
  · have notSelf : next ≠ self.val := by omega
    by_cases isAll : next = computeOnAll
    · subst isAll
      cases kind with
      | range =>
          refine iff_of_false (not_routed_range isTarget (.inl rfl)) ?_
          simp [OneProcess, computeOnAll]
      | tag =>
          rw [routed_all_iff isTarget]
          simp only [isTarget_other other]
          have single : (∃ arbitrary, ∀ i, i = arbitrary ↔
              (i ≠ self → (locals i).drops .tag = false)) ↔
                ∀ i, i ≠ self → (locals i).drops .tag = true := by
            constructor
            · rintro ⟨arbitrary, only⟩ i notSelf
              have isSelf : self = arbitrary := (only self).mpr (absurd rfl)
              refine Bool.eq_true_of_not_eq_false fun stays => notSelf ?_
              exact ((only i).mpr fun _ => stays).trans isSelf.symm
            · intro all
              refine ⟨self, fun i => ⟨fun same notSame => absurd same notSame, fun stays => ?_⟩⟩
              by_contra notSame
              exact absurd ((all i notSame).symm.trans (stays notSame)) (by decide)
          rw [single]
          simp [OneProcess, computeOnAll, computeOnAllOthers]
    by_cases isAllOthers : next = computeOnAllOthers
    · subst isAllOthers
      cases kind with
      | range =>
          refine iff_of_false (not_routed_range isTarget (.inr rfl)) ?_
          simp [OneProcess, computeOnAllOthers]
      | tag =>
          rw [routed_allOthers_iff isTarget]
          simp only [isTarget_other other]
          have single : (∃ arbitrary, ∀ i, i = arbitrary ↔
              i ≠ self ∧ (locals i).drops .tag = false) ↔
                ∃! i, i ≠ self ∧ (locals i).drops .tag = false := by
            refine exists_congr fun arbitrary => ?_
            constructor
            · intro only
              exact ⟨(only arbitrary).mp rfl, fun i stays => (only i).mpr stays⟩
            · rintro ⟨stays, only⟩ i
              exact ⟨fun same => same ▸ stays, only i⟩
          rw [single]
          simp [OneProcess, computeOnAll, computeOnAllOthers]
    have notOne : ¬ OneProcess locals self kind next := by
      rintro (⟨valid, -⟩ | ⟨-, same, -⟩ | ⟨-, same, -⟩)
      · omega
      · exact isAll same
      · exact isAllOthers same
    by_cases isNone : next = noComputeOn
    · subst isNone
      refine iff_of_false ?_ notOne
      have isPrepared := prepare_left kind (locals self).own isTarget
      rw [routed_iff_of_addresses [] isPrepared .nil (by simp)]
      rintro ⟨arbitrary, only⟩
      have executed := (only arbitrary).mp ((isTarget_other other arbitrary).mpr rfl)
      simp [Fate.here] at executed
    · have isPrepared := prepare_passedOn kind (locals self).own isTarget notSelf isAll isNone
      refine iff_of_false (not_routed_of_invalid isPrepared ?_ negative) notOne
      cases kind with
      | tag =>
          rw [sendTo, if_neg (not_or.mpr ⟨isAll, isAllOthers⟩)]
          exact List.mem_singleton_self next
      | range => exact List.mem_singleton_self next
  · obtain ⟨target, rfl⟩ : ∃ target : Fin n, next = target.val :=
      ⟨⟨next.toNat, by omega⟩, by simp; omega⟩
    rw [routed_pid_iff isTarget]
    simp only [isTarget_other other]
    constructor
    · rintro ⟨arbitrary, only⟩
      obtain ⟨rfl, stays⟩ := (only arbitrary).mp rfl
      refine .inl ⟨by omega, fun i notSelf same => ?_⟩
      obtain rfl : arbitrary = i := Fin.ext (Int.ofNat_inj.mp same)
      exact stays notSelf
    · rintro (⟨-, stays⟩ | ⟨-, same, -⟩ | ⟨-, same, -⟩)
      · exact ⟨target, fun i => ⟨fun same => ⟨same, fun notSelf => stays target notSelf rfl⟩,
          And.left⟩⟩
      · simp only [computeOnAll] at same
        omega
      · simp only [computeOnAllOthers] at same
        omega

/-- An instance is routed as the tuner tells exactly if it is no range for all processes or for
all others, the round robin does not name an invalid process, and no receiver drops the
instance. -/
theorem compute_on_routed_iff (locals : Fin n → Local) (self : Fin n) (kind : Kind) (pot : Int) :
    Routed locals self kind pot ↔ Routable locals self kind pot := by
  by_cases isPid : 0 ≤ pot ∧ pot < n
  · obtain ⟨target, rfl⟩ : ∃ target : Fin n, pot = target.val :=
      ⟨⟨pot.toNat, by omega⟩, by simp [isPid.1]⟩
    rw [routed_pid_iff (getTargetPid_pid self target _)]
    simp only [IsTarget, if_pos isPid, Int.ofNat_inj, Fin.val_inj]
    constructor
    · rintro ⟨-, only⟩
      refine ⟨fun i notSelf same => ?_, fun special => ?_, fun other => ?_⟩
      · obtain rfl : target = i := Fin.ext (Int.ofNat_inj.mp same)
        exact ((only target).mp rfl).2 notSelf
      · simp only [computeOnAll, computeOnAllOthers] at special
        omega
      · have := other.1
        omega
    · intro routable
      exact ⟨self, fun i => ⟨fun same => ⟨same, fun notSelf =>
        routable.process target notSelf rfl⟩, And.left⟩⟩
  have notProcess (i : Fin n) : pot ≠ i.val := by omega
  by_cases isLocal : pot = computeOnLocal
  · subst isLocal
    rw [routed_pid_iff (getTargetPid_local self _)]
    refine iff_of_true ⟨self, fun i => ?_⟩ ⟨fun i _ same => absurd same (notProcess i), ?_,
      fun other => absurd rfl other.2.1⟩
    · simp [IsTarget, if_neg isPid]
    · simp [computeOnLocal, computeOnAll, computeOnAllOthers]
  by_cases special : pot = computeOnAll ∨ pot = computeOnAllOthers
  · have noOther : ¬ IsOther n pot := fun other => special.elim other.2.2.1 other.2.2.2
    have routable : Routable locals self kind pot ↔
        kind = .tag ∧ ∀ i, i ≠ self → (locals i).drops kind = false :=
      ⟨fun holds => holds.special special, fun holds =>
        ⟨fun i _ same => absurd same (notProcess i), fun _ => holds, fun other =>
          absurd other noOther⟩⟩
    rw [routable]
    cases kind with
    | range =>
        refine iff_of_false ?_ (by simp)
        rcases special with rfl | rfl
        · exact not_routed_range (getTargetPid_all self _) (.inl rfl)
        · exact not_routed_range (getTargetPid_allOthers self _) (.inr rfl)
    | tag =>
        rcases special with rfl | rfl
        · rw [routed_all_iff (getTargetPid_all self _)]
          simp only [IsTarget, if_neg isPid, if_neg isLocal, if_true, true_iff, true_and]
          exact ⟨fun ⟨_, all⟩ => all, fun all => ⟨self, all⟩⟩
        · rw [routed_allOthers_iff (getTargetPid_allOthers self _)]
          have notAll : computeOnAllOthers ≠ computeOnAll := by decide
          simp only [IsTarget, if_neg isPid, if_neg isLocal, if_neg notAll, if_true, true_and]
          exact ⟨fun ⟨_, all⟩ i notSelf => ((all i).mp notSelf).2,
            fun all => ⟨self, fun i => ⟨fun notSelf => ⟨notSelf, all i notSelf⟩, And.left⟩⟩⟩
  · have other : IsOther n pot := ⟨by omega, isLocal, not_or.mp special⟩
    rw [routed_other_iff other]
    exact ⟨fun one => ⟨fun i _ same => absurd same (notProcess i),
      fun isSpecial => absurd isSpecial special, fun _ => one⟩,
      fun routable => routable.other other⟩

/-- Two processes, and a range for all of them. -/
theorem compute_on_fails :
    ¬ Routed (fun _ : Fin 2 => ⟨⟨.prepared, false⟩, none, 0⟩) 0 .range computeOnAll :=
  not_routed_range (getTargetPid_all 0 _) (.inl rfl)

def answer (n : Nat) (pot : Int) : Tag.ComputeOn n :=
  if inside : 0 ≤ pot ∧ pot < n then .pid ⟨pot.toNat, by omega⟩
  else if pot = computeOnLocal then .here
  else if pot = computeOnAll then .all
  else if pot = computeOnAllOthers then .allOthers
  else .roundRobin

/-- The instance is kept, or not, and sent to the given processes. -/
def CreatedAs (self : Fin n) (own : Preparation) (pot : Int) (currP : BitVec 32)
    (created : Bool × List (Fin n)) : Prop :=
  ∃ fate next, prepare self true .tag own true pot currP =
    ((fate, addresses created.2), next) ∧ fate.here = created.1

theorem createdAs_pid {target : Fin n} {own : Preparation} {currP next : BitVec 32}
    (isTarget : getTargetPid self pot currP = ((target.val : Int), next)) :
    CreatedAs self own pot currP (if target = self then (true, []) else (false, [target])) := by
  by_cases same : target = self
  · subst same
    obtain ⟨fate, isPrepared, here⟩ := prepare_self .tag own isTarget
    rw [if_pos rfl]
    exact ⟨fate, next, isPrepared, here⟩
  · rw [if_neg same]
    exact ⟨.passedOn, next, prepare_pid .tag own same isTarget, rfl⟩

/-- A tag collection creates its step instances as `prepare` tells. -/
theorem createStepInstance_eq {k : Nat} {TagType : Type} (tuner : Tag.Tuner n k TagType)
    (self : Fin n) (coll : Fin k) (tag : TagType) (own : Preparation) {currP : BitVec 32}
    (valid : 0 ≤ (roundRobinNext n currP).1) (distributed : tuner.distributed = true)
    (isAnswer : tuner.computeOn self coll tag = answer n pot) :
    ∃ next, CreatedAs self own pot currP
      (Tag.createStepInstance tuner self coll tag true next) := by
  simp only [Tag.createStepInstance, distributed, Bool.and_self, if_true, isAnswer]
  by_cases isPid : 0 ≤ pot ∧ pot < n
  · have isTarget := getTargetPid_pid self ⟨pot.toNat, by omega⟩ currP
    simp only [answer, dif_pos isPid, Tag.getTargetPid]
    rw [Int.toNat_of_nonneg isPid.1] at isTarget
    exact ⟨self, @createdAs_pid n self pot ⟨pot.toNat, by omega⟩ own currP currP
      (by simpa [isPid.1] using isTarget)⟩
  rw [answer, dif_neg isPid]
  by_cases isLocal : pot = computeOnLocal
  · rw [if_pos isLocal]
    subst isLocal
    exact ⟨self, createdAs_pid (getTargetPid_local self currP)⟩
  rw [if_neg isLocal]
  by_cases isAll : pot = computeOnAll
  · rw [if_pos isAll]
    subst isAll
    exact ⟨self, .scheduled, currP, prepare_all .tag own (getTargetPid_all self currP), rfl⟩
  rw [if_neg isAll]
  by_cases isAllOthers : pot = computeOnAllOthers
  · rw [if_pos isAllOthers]
    subst isAllOthers
    have notSelf : computeOnAllOthers ≠ (self.val : Int) := by
      simp only [computeOnAllOthers]
      omega
    exact ⟨self, .passedOn, currP, prepare_passedOn .tag own (getTargetPid_allOthers self currP)
      notSelf (by decide) (by decide), rfl⟩
  · rw [if_neg isAllOthers]
    have other : IsOther n pot := ⟨by omega, isLocal, isAll, isAllOthers⟩
    have below : (roundRobinNext n currP).1 < n :=
      Int.tmod_lt_of_pos _ (Int.natCast_pos.mpr self.pos)
    obtain ⟨target, isNext⟩ : ∃ target : Fin n, (roundRobinNext n currP).1 = target.val :=
      ⟨⟨(roundRobinNext n currP).1.toNat, by omega⟩, by simp [valid]⟩
    exact ⟨target, createdAs_pid ((getTargetPid_other self other currP).trans
      (Prod.ext isNext rfl))⟩

end CnC.Scheduler
