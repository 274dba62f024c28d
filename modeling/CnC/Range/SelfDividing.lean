import CnC.Range.SubSteps

/-!
# Self-dividing ranges

If the range is the tag, then the user step is executed once for the range.  The first
execution of the instance prepares it, which executes the step if the tuner prescribes it.
-/

namespace CnC.Range

open Transition

/-- `m_inited`, with the results of the user step and the number of reads of
`num_suspends`; `reported` tells whether the instance has returned `CNC_Success`. -/
structure SelfDividing where
  inited : Bool
  log : List (Nat × SubResult)
  reads : Nat
  reported : Bool

namespace SelfDividing

/-- `range_step::execute`, where `false` stands for the exception `DATA_NOT_READY`. -/
def rangeStep (outside : Outside) (preschedule : Bool) (inst : SelfDividing) :
    Bool × SelfDividing :=
  let (ret, log) :=
    if inst.inited then (true, inst.log)
    else prepareFromRange outside preschedule inst.log 0
  let inst := { inst with inited := true, log := log }
  if !ret then (false, inst)
  else
    let rv := outside.results inst.log.length
    (decide (rv ≠ .unfinished), { inst with log := inst.log ++ [(0, rv)] })

/-- `range_step_instance::execute`; a successful instance is deleted.  There is no array of
statuses, so that every execution looks at the suspends first. -/
def execute (outside : Outside) (preschedule : Bool) (inst : SelfDividing) :
    Option SelfDividing :=
  if inst.reported then none
  else
    let numSuspends := outside.suspends inst.reads
    let inst := { inst with reads := inst.reads + 1 }
    if numSuspends > 1 then some inst
    else
      let (returned, inst) := inst.rangeStep outside preschedule
      some { inst with reported := returned }

def create : SelfDividing :=
  { inited := false, log := [], reads := 0, reported := false }

def system (outside : Outside) (preschedule : Bool) : System SelfDividing Unit where
  Initial inst := inst = create
  step inst _ := inst.execute outside preschedule

/-- The user step is not executed again after it has succeeded, and the instance is
successful only if the step was. -/
structure Exact (inst : SelfDividing) : Prop where
  once : inst.log.Pairwise fun first _ => first.2 ≠ .success
  reported : inst.reported = true → ∃ p, inst.log.getLast? = some (p, .success)

/-- The number of executions within `prepare_from_range`. -/
def preRuns (preschedule : Bool) : Nat :=
  if preschedule then 1 else 0

/-- The execution by the tuner's prescription does not succeed, and the first other one which is
not unfinished does not return `CNC_NeedsSequentialize`. -/
def Condition (results : Nat → SubResult) (preschedule : Bool) : Prop :=
  (preschedule = true → results 0 ≠ .success) ∧
    ∀ k, preRuns preschedule ≤ k →
      (∀ j, preRuns preschedule ≤ j → j < k → results j = .unfinished) →
        results k ≠ .needsSequentialize

variable {outside : Outside} {preschedule : Bool} {inst next : SelfDividing}

/-- What has happened: the executions after the first ones were unsuccessful, except for
the last one if the instance is successful. -/
structure History (outside : Outside) (preschedule : Bool) (inst : SelfDividing) : Prop where
  log : inst.log = (List.range inst.log.length).map fun k => (0, outside.results k)
  fresh : inst.inited = false → inst.log = [] ∧ inst.reported = false
  inited : inst.inited = true → preRuns preschedule ≤ inst.log.length
  unfinished : ∀ k, preRuns preschedule ≤ k →
    k + (if inst.reported then 1 else 0) < inst.log.length → outside.results k = .unfinished
  last : inst.reported = true → ∃ k, inst.log.length = k + 1 ∧ preRuns preschedule ≤ k ∧
    outside.results k ≠ .unfinished

theorem range_snoc (results : Nat → SubResult) (n : Nat) :
    ((List.range n).map fun k => (0, results k)) ++ [(0, results n)] =
      (List.range (n + 1)).map fun k => (0, results k) := by
  rw [List.range_succ, List.map_append]
  rfl

theorem History.run (history : History outside preschedule inst)
    (started : preRuns preschedule ≤ inst.log.length) (unreported : inst.reported = false)
    (reads : Nat) :
    History outside preschedule
      { inited := true, log := inst.log ++ [(0, outside.results inst.log.length)], reads := reads,
        reported := decide (outside.results inst.log.length ≠ .unfinished) } := by
  have length : (inst.log ++ [(0, outside.results inst.log.length)]).length =
      inst.log.length + 1 := by simp
  refine ⟨?_, nofun, fun _ => ?_, fun k after below => ?_, fun isReported => ?_⟩
  · rw [length, ← range_snoc, ← history.log]
  · rw [length]
    omega
  · rw [length] at below
    by_cases before : k < inst.log.length
    · exact history.unfinished k after (by rw [unreported]; simpa using before)
    · by_contra finished
      have isLast : k = inst.log.length := by omega
      rw [isLast] at finished
      simp [finished] at below
      omega
  · exact ⟨inst.log.length, length, started, of_decide_eq_true isReported⟩

theorem History.step (history : History outside preschedule inst)
    (stepped : inst.execute outside preschedule = some next) :
    History outside preschedule next := by
  unfold SelfDividing.execute at stepped
  split at stepped
  · cases stepped
  · rename_i notReported
    have unreported : inst.reported = false := by simpa using notReported
    simp only at stepped
    split at stepped
    · cases stepped
      exact ⟨history.log, history.fresh, history.inited, history.unfinished, history.last⟩
    · cases stepped
      unfold rangeStep
      cases isInited : inst.inited with
      | true => exact history.run (history.inited isInited) unreported _
      | false =>
          obtain ⟨isEmpty, -⟩ := history.fresh isInited
          unfold prepareFromRange
          cases preschedule with
          | false => exact history.run (by simp [preRuns]) unreported _
          | true =>
              have prepared : History outside true
                  { inited := true, log := [(0, outside.results 0)], reads := inst.reads,
                    reported := false } := by
                refine ⟨rfl, nofun, fun _ => le_rfl, fun k after below => ?_, nofun⟩
                simp only [preRuns, if_true, Bool.false_eq_true, if_false, List.length_singleton]
                  at after below
                omega
              by_cases succeeded : outside.results 0 = .success
              · simp only [isEmpty, List.length_nil, succeeded, ne_eq, not_true_eq_false,
                  decide_false, if_true, Bool.false_eq_true, if_false, Bool.not_false]
                exact ⟨by simp [succeeded], nofun, prepared.inited, prepared.unfinished, nofun⟩
              · have ran := prepared.run le_rfl rfl (inst.reads + 1)
                simpa [isEmpty, succeeded] using ran

theorem History.once (history : History outside preschedule inst) :
    (inst.log.Pairwise fun first _ => first.2 ≠ .success) ↔
      ∀ k, k + 1 < inst.log.length → outside.results k ≠ .success := by
  rw [history.log, List.pairwise_map, List.length_map, List.length_range,
    List.pairwise_iff_getElem]
  simp only [List.length_range, List.getElem_range]
  constructor
  · exact fun pairwise k below => pairwise k (k + 1) (by omega) below (Nat.lt_succ_self k)
  · exact fun failed first second _ below before => failed first (by omega)

theorem History.getLast? (history : History outside preschedule inst) {k : Nat}
    (length : inst.log.length = k + 1) : inst.log.getLast? = some (0, outside.results k) := by
  rw [history.log, length, ← range_snoc]
  simp

theorem History.exact (history : History outside preschedule inst)
    (condition : Condition outside.results preschedule) : Exact inst := by
  obtain ⟨first, parallel⟩ := condition
  refine ⟨history.once.mpr fun k below succeeded => ?_, fun isReported => ?_⟩
  · by_cases after : preRuns preschedule ≤ k
    · have unfinished := history.unfinished k after (by split <;> omega)
      rw [succeeded] at unfinished
      cases unfinished
    · cases preschedule with
      | false => exact after (Nat.zero_le k)
      | true =>
          obtain rfl : k = 0 := Nat.lt_one_iff.mp (Nat.not_le.mp after)
          exact first rfl succeeded
  · obtain ⟨k, length, after, finished⟩ := history.last isReported
    have notSequential := parallel k after fun j afterPre before =>
      history.unfinished j afterPre (by rw [if_pos isReported]; omega)
    refine ⟨0, ?_⟩
    rw [history.getLast? length]
    cases result : outside.results k with
    | success => rfl
    | unfinished => exact absurd result finished
    | needsSequentialize => exact absurd result notSequential

/-- The instance is never suspended when it is executed. -/
def unsuspended (results : Nat → SubResult) : Outside where
  results := results
  suspends _ := 1

def succeeds : Outside :=
  unsuspended fun _ => .success

end SelfDividing

end CnC.Range
