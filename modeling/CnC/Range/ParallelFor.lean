import Mathlib.Data.List.Dedup
import CnC.Library.Pool
import CnC.Range.Partitioner
import CnC.Range.SubSteps

/-!
# parallel_for

The range is divided by the instances which execute it, and the threads execute the
instances in any order.  The functor is a step which always succeeds.
-/

namespace CnC.Range

open Transition StridedRange

/-- `functor_step` returns `CNC_Success`, and it does not get anything, so that there is no
other suspend than the one of `do_execute`. -/
def functorStep : Outside where
  results _ := .success
  suspends _ := 1

structure PforTuner where
  checkDeps : Bool
  preschedule : Bool

/-- The calls of the functor by an instance after the division of its range.  Without
dependency checks, the iterators visit the range once. -/
def PforTuner.calls (tuner : PforTuner) (r : StridedRange) : List Int :=
  if tuner.checkDeps then
    match Instance.execute functorStep tuner.preschedule r.size r.elements.length .create 1 with
    | some (_, inst) => inst.log.filterMap fun entry => r.elements[entry.1]?
    | none => []
  else r.elements

inductive PforTask where
  | dividing (p : Partitioner) (r : StridedRange)
  | calling (values : List Int)

/-- The next thing which an instance does: one division, or one call.  The new range is
given to an instance of its own. -/
def PforTask.run (tuner : PforTuner) : PforTask → List Int × List PforTask
  | dividing p r =>
      let (q, left, right, more) := p.divideAndOriginate r
      ([], (if more then dividing q left else calling (tuner.calls left)) ::
        (right.map (dividing q)).toList)
  | calling [] => ([], [])
  | calling (value :: rest) => ([value], [calling rest])

/-- `parallel_for` waits until there are no more instances. -/
def parallelFor (tuner : PforTuner) (p : Partitioner) (first last incr : Int)
    (incrPos : 0 < incr) : System (Pool.State PforTask Int) Nat :=
  Pool.system (PforTask.run tuner) (.dividing p (make first last incr incrPos))

section Calls

variable {n : Nat} {s : Loop} {tuner : PforTuner} {r : StridedRange}

def AllSucceeded (log : List (Nat × SubResult)) : Prop :=
  ∀ entry ∈ log, entry.2 = .success

theorem AllSucceeded.snoc {log : List (Nat × SubResult)} (succeeded : AllSucceeded log) (p : Nat) :
    AllSucceeded (log ++ [(p, functorStep.results log.length)]) := by
  intro entry member
  rcases List.mem_append.mp member with before | isNew
  · exact succeeded entry before
  · rw [List.mem_singleton.mp isNew]
    rfl

theorem prepare_succeeded (preschedule : Bool) (size n : Nat) :
    AllSucceeded (prepare functorStep preschedule size n []).2 := by
  refine List.foldlRecOn (motive := fun (s : List TagStatus × List (Nat × SubResult)) =>
    AllSucceeded s.2) _ _ nofun fun s succeeded p _ => ?_
  cases preschedule with
  | false => exact succeeded
  | true => exact succeeded.snoc p

/-- Nothing has failed so far. -/
structure Loop.Succeeded (s : Loop) : Prop where
  numsus1 : s.numsus1 = 1
  numreplay : s.numreplay = 0
  nseq : s.nseq = false
  log : AllSucceeded s.log

theorem Loop.Succeeded.visit (succeeded : s.Succeeded) (p : Nat) :
    (visit functorStep s p).Succeeded := by
  unfold Range.visit
  split
  · exact succeeded
  · exact ⟨succeeded.numsus1, succeeded.numreplay, succeeded.nseq, succeeded.log.snoc p⟩

theorem pass_succeeded (one : s.numsus1 = 1) (nseq : s.nseq = false) (log : AllSucceeded s.log) :
    (pass functorStep n s).Succeeded := by
  have visited : (((List.range n).takeWhile s.mLast.allows).foldl (visit functorStep)
      { s with numreplay := 0 }).Succeeded :=
    List.foldlRecOn _ _ ⟨one, rfl, nseq, log⟩ fun _ succeeded p _ => succeeded.visit p
  have bounded : ∀ {t : Loop} (bound : Last), t.Succeeded → { t with mLast := bound }.Succeeded :=
    fun _ succeeded =>
      ⟨succeeded.numsus1, succeeded.numreplay, succeeded.nseq, succeeded.log⟩
  unfold pass
  simp only
  split
  · exact bounded _ visited
  · split
    · exact bounded _ visited
    · exact visited
  · exact visited

theorem loop_succeeded (one : s.numsus1 = 1) (nseq : s.nseq = false) (log : AllSucceeded s.log) :
    ∃ t, loop functorStep n 1 s = some (t, [s]) ∧ t.numreplay = 0 ∧ AllSucceeded t.log := by
  have passed := pass_succeeded (n := n) one nseq log
  refine ⟨{ pass functorStep n s with numsus1 := 1, reads := (pass functorStep n s).reads + 1 }, ?_,
    passed.numreplay, passed.log⟩
  have suspends : ∀ k, functorStep.suspends k = 1 := fun _ => rfl
  simp [loop, passed.nseq, passed.numreplay, passed.numsus1, suspends]

theorem execute_succeeded (preschedule : Bool) (n : Nat) :
    ∃ inst, Instance.execute functorStep preschedule n n .create 1 = some (.success, inst) ∧
      (inst.log.map Prod.fst).Perm (List.range n) := by
  have prepared := prepare_consistent functorStep preschedule n
  have succeeded := prepare_succeeded preschedule n n
  let inst : Instance :=
    { statuses := some (prepare functorStep preschedule n n []).1,
      log := (prepare functorStep preschedule n n []).2, reads := 1 }
  have begins : Begins n (Loop.start functorStep inst (prepare functorStep preschedule n n []).1) :=
    begins_start functorStep prepared
  obtain ⟨t, ran, finished, log⟩ := loop_succeeded (n := n) rfl begins.nseq succeeded
  obtain ⟨consistent, decides, -, -⟩ := loop_spec 1 begins ran
  refine ⟨{ statuses := some t.statuses, log := t.log, reads := t.reads }, ?_, ?_⟩
  · have executed : Range.execute functorStep n 1 inst (prepare functorStep preschedule n n []).1 =
        some (.success, { statuses := some t.statuses, log := t.log, reads := t.reads }) := by
      rw [Range.execute, ran]
      simp [finished]
    exact executed
  · have once : (t.log.map Prod.fst).Nodup := by
      refine List.pairwise_map.mpr (consistent.once.imp_of_mem ?_)
      exact fun first _ different => (different (log _ first)).symm
    refine (List.perm_ext_iff_of_nodup once List.nodup_range).mpr fun p => ?_
    rw [List.mem_range]
    constructor
    · intro member
      obtain ⟨⟨q, result⟩, isEntry, rfl⟩ := List.mem_map.mp member
      have isSuccess : result = .success := log _ isEntry
      have isDone := (consistent.done q).mpr (isSuccess ▸ isEntry)
      have := (List.getElem?_eq_some_iff.mp isDone).1
      exact consistent.length ▸ this
    · intro inside
      exact List.mem_map.mpr ⟨_, (consistent.done p).mp (decides.mp finished p inside), rfl⟩

theorem filterMap_getElem?_range (values : List Int) :
    (List.range values.length).filterMap (fun p => values[p]?) = values := by
  induction values with
  | nil => rfl
  | cons value rest inductionHypothesis =>
      rw [List.length_cons, List.range_succ_eq_map, List.filterMap_cons, List.filterMap_map]
      exact congrArg (List.cons value) inductionHypothesis

theorem calls_perm (tuner : PforTuner) (ordered : r.start ≤ r.last) :
    (tuner.calls r).Perm r.elements := by
  obtain ⟨inst, executed, perm⟩ := execute_succeeded tuner.preschedule r.elements.length
  have asMap : (inst.log.filterMap fun entry => r.elements[entry.1]?) =
      (inst.log.map Prod.fst).filterMap fun p => r.elements[p]? := by
    rw [List.filterMap_map]
    rfl
  unfold PforTuner.calls
  split
  · simp only [← r.length_elements ordered, executed, asMap]
    exact (perm.filterMap _).trans (.of_eq (filterMap_getElem?_range r.elements))
  · exact .refl _

theorem start_mem_calls (tuner : PforTuner) (inverted : r.last < r.start) :
    r.start ∈ tuner.calls r := by
  have size := r.size_eq_zero_iff.mpr inverted.le
  unfold PforTuner.calls
  rw [r.elements_of_inverted inverted, size]
  obtain ⟨checkDeps, preschedule⟩ := tuner
  cases checkDeps with
  | false => exact List.mem_singleton.mpr rfl
  | true =>
      cases preschedule with
      | false => exact List.mem_cons_self
      | true => exact List.mem_cons_self

end Calls

section Tasks

variable {tuner : PforTuner} {p : Partitioner} {r : StridedRange}

def PforTask.pending (tuner : PforTuner) : PforTask → List Int
  | dividing p r => (leaves p r).flatMap tuner.calls
  | calling values => values

/-- The number of divisions and calls is smaller. -/
def PforTask.weight (tuner : PforTuner) : PforTask → Nat
  | dividing _ r => (tuner.calls r).length + 2 + 3 * (r.size - 1)
  | calling values => values.length + 1

theorem run_of_not (indivisible : (p.grain r.size).2.isDivisible r (p.grain r.size).1 = false) :
    (PforTask.dividing p r).run tuner = ([], [.calling (tuner.calls r)]) := by
  simp [PforTask.run, Partitioner.divide_of_not indivisible]

theorem run_of_divisible
    (divisible : (p.grain r.size).2.isDivisible r (p.grain r.size).1 = true) :
    (PforTask.dividing p r).run tuner =
      ([], [if (p.grain r.size).2.isDivisible r.split.1 (p.grain r.size).1 then
          .dividing (p.grain r.size).2 r.split.1 else .calling (tuner.calls r.split.1),
        .dividing (p.grain r.size).2 r.split.2]) := by
  simp [PforTask.run, Partitioner.divide_of_divisible divisible]

theorem run_conserves (tuner : PforTuner) (task : PforTask) :
    (task.pending tuner).Perm
      ((task.run tuner).1 ++ (task.run tuner).2.flatMap (PforTask.pending tuner)) := by
  cases task with
  | calling values => cases values <;> simp [PforTask.run, PforTask.pending]
  | dividing p r =>
      cases divisible : (p.grain r.size).2.isDivisible r (p.grain r.size).1 with
      | false =>
          rw [run_of_not divisible]
          simp [PforTask.pending, leaves_of_not divisible]
      | true =>
          have first : PforTask.pending tuner
              (if (p.grain r.size).2.isDivisible r.split.1 (p.grain r.size).1 then
                .dividing (p.grain r.size).2 r.split.1 else .calling (tuner.calls r.split.1)) =
              (leaves (p.grain r.size).2 r.split.1).flatMap tuner.calls := by
            split
            · rfl
            · rename_i enough
              rw [leaves_of_not]
              · simp [PforTask.pending]
              · rw [Partitioner.grain_grain]
                simpa using enough
          rw [run_of_divisible divisible]
          simp only [List.flatMap_cons, List.flatMap_nil, List.append_nil, List.nil_append, first]
          rw [PforTask.pending, PforTask.pending, ← List.flatMap_append]
          exact (leaves_of_divisible divisible).flatMap_right _

theorem run_decreases (tuner : PforTuner) (task : PforTask) :
    ((task.run tuner).2.map (PforTask.weight tuner)).sum < task.weight tuner := by
  cases task with
  | calling values => cases values <;> simp [PforTask.run, PforTask.weight]
  | dividing p r =>
      cases divisible : (p.grain r.size).2.isDivisible r (p.grain r.size).1 with
      | false =>
          rw [run_of_not divisible]
          simp only [List.map_cons, List.map_nil, List.sum_cons, List.sum_nil, PforTask.weight]
          omega
      | true =>
          have rangeDivisible := Partitioner.range_divisible divisible
          obtain ⟨leftPos, rightPos, sum, -⟩ := r.split_size rangeDivisible
          obtain ⟨leftOrdered, rightOrdered⟩ := r.split_ordered rangeDivisible
          have numCalls : ∀ {t : StridedRange}, 0 < t.size → (tuner.calls t).length = t.size := by
            intro t positive
            have ordered : t.start ≤ t.last := by
              have := t.size_eq_zero_iff
              omega
            rw [(calls_perm tuner ordered).length_eq, t.length_elements ordered]
          rw [run_of_divisible divisible]
          simp only [List.map_cons, List.map_nil, List.sum_cons, List.sum_nil]
          split <;>
            simp only [PforTask.weight, numCalls leftPos, numCalls rightPos,
              numCalls (show 0 < r.size by omega)] <;>
            omega

end Tasks

section Index

variable {tuner : PforTuner} {p : Partitioner} {first last incr : Int} {incrPos : 0 < incr}

/-- The values in `{first <= i=first+step*x < last and 0<=x}`. -/
def IsIndex (first last incr i : Int) : Prop :=
  ∃ x : Nat, i = first + incr * x ∧ i < last

/-- The functor was called once for each index and for no other value. -/
def Covers (first last incr : Int) (calls : List Int) : Prop :=
  ∀ i, (IsIndex first last incr i → calls.count i = 1) ∧
    (¬ IsIndex first last incr i → i ∉ calls)

/-- Every run ends, and then there are no more instances. -/
def Returns (tuner : PforTuner) (p : Partitioner) (first last incr : Int) (incrPos : 0 < incr) :
    Prop :=
  (∃ bound, ∀ s actions next, (parallelFor tuner p first last incr incrPos).Initial s →
      (parallelFor tuner p first last incr incrPos).run (fun _ _ => True) s actions = some next →
      actions.length ≤ bound) ∧
    ∀ s, Reachable (parallelFor tuner p first last incr incrPos) s → s.tasks ≠ [] →
      ∃ i next, (parallelFor tuner p first last incr incrPos).step s i = some next

theorem covers_elements (ordered : first ≤ last) :
    Covers first last incr (make first last incr incrPos).elements := by
  have mem : ∀ i, i ∈ (make first last incr incrPos).elements ↔ IsIndex first last incr i := by
    intro i
    rw [elements_eq _ ordered, List.mem_map]
    constructor
    · rintro ⟨x, inside, rfl⟩
      exact ⟨x, rfl, ((make first last incr incrPos).lt_size_iff x).mp (List.mem_range.mp inside)⟩
    · rintro ⟨x, rfl, inside⟩
      exact ⟨x, List.mem_range.mpr (((make first last incr incrPos).lt_size_iff x).mpr inside), rfl⟩
  have once : (make first last incr incrPos).elements.Nodup := by
    rw [elements_eq _ ordered]
    refine List.nodup_range.map fun x y same => ?_
    simpa [incrPos.ne'] using same
  exact fun i => ⟨fun isIndex => List.count_eq_one_of_mem once ((mem i).mpr isIndex),
    (mem i).not.mpr⟩

theorem indivisible_of_empty {r : StridedRange} {grain : Int} (isEmpty : r.size = 0) :
    p.isDivisible r grain = false := by
  have notDivisible : r.isDivisible = false := by
    rw [← Bool.not_eq_true, r.isDivisible_iff, isEmpty]
    omega
  rw [Partitioner.isDivisible, notDivisible, Bool.and_false]

theorem leaves_calls_perm {r : StridedRange} (ordered : r.start ≤ r.last) :
    ((leaves p r).flatMap tuner.calls).Perm r.elements := by
  have each : ∀ leaf ∈ leaves p r, leaf.start ≤ leaf.last →
      (tuner.calls leaf).Perm leaf.elements := fun _ _ => calls_perm tuner
  by_cases isEmpty : r.size = 0
  · rw [leaves_of_not (indivisible_of_empty isEmpty), List.flatMap_singleton]
    exact calls_perm tuner ordered
  · have nonempty : r.start < r.last := by
      have := r.size_eq_zero_iff
      omega
    obtain ⟨parts, perm, isPartition⟩ := leaves_isPartition p r nonempty
    rw [← isPartition.elements]
    refine (perm.symm.flatMap_right _).trans (List.Perm.flatMap_left parts fun part member => ?_)
    refine calls_perm tuner ?_
    have := part.size_eq_zero_iff
    have := (isPartition.nonempty part member).1
    omega

theorem parallelFor_returns (tuner : PforTuner) (p : Partitioner) (first last incr : Int)
    (incrPos : 0 < incr) : Returns tuner p first last incr incrPos := by
  constructor
  · refine ⟨PforTask.weight tuner (.dividing p (make first last incr incrPos)), ?_⟩
    rintro _ actions next rfl ran
    exact Pool.length_le (run_decreases tuner) actions ran
  · intro s _ nonempty
    exact ⟨0, Pool.step_zero nonempty⟩

theorem outputs_perm {s : Pool.State PforTask Int}
    (reached : Reachable (parallelFor tuner p first last incr incrPos) s) (isEmpty : s.tasks = []) :
    s.outputs.Perm ((leaves p (make first last incr incrPos)).flatMap tuner.calls) := by
  have conserved := Pool.conserved (run_conserves tuner) reached
  rwa [isEmpty, List.flatMap_nil, List.append_nil] at conserved

theorem first_called_of_inverted (tuner : PforTuner) (p : Partitioner) (incrPos : 0 < incr)
    (inverted : last < first) : ∃ s, Reachable (parallelFor tuner p first last incr incrPos) s ∧
      s.tasks = [] ∧ first ∈ s.outputs := by
  obtain ⟨s, reached, isEmpty⟩ := Pool.exists_empty (run_decreases tuner)
    (s := { tasks := [.dividing p (make first last incr incrPos)], outputs := [] }) (.initial rfl)
  have size : (make first last incr incrPos).size = 0 := (size_eq_zero_iff _).mpr inverted.le
  refine ⟨s, reached, isEmpty, ?_⟩
  rw [(outputs_perm reached isEmpty).mem_iff, leaves_of_not (indivisible_of_empty size),
    List.flatMap_singleton]
  exact start_mem_calls tuner inverted

theorem not_isIndex_of_inverted (inverted : last ≤ first) : ¬ IsIndex first last incr first := by
  rintro ⟨x, -, below⟩
  omega

/-- `parallel_for` covers its index set if and only if the interval is not inverted. -/
theorem parallelFor_exact_iff (tuner : PforTuner) (p : Partitioner) (first last incr : Int)
    (incrPos : 0 < incr) :
    (Returns tuner p first last incr incrPos ∧
      ∀ s, Reachable (parallelFor tuner p first last incr incrPos) s → s.tasks = [] →
        Covers first last incr s.outputs) ↔ first ≤ last := by
  constructor
  · rintro ⟨-, covers⟩
    by_contra inverted
    rw [not_le] at inverted
    obtain ⟨s, reached, isEmpty, called⟩ := first_called_of_inverted tuner p incrPos inverted
    exact (covers s reached isEmpty first).2 (not_isIndex_of_inverted inverted.le) called
  · intro ordered
    refine ⟨parallelFor_returns tuner p first last incr incrPos, fun s reached isEmpty => ?_⟩
    have perm := (outputs_perm reached isEmpty).trans (leaves_calls_perm ordered)
    intro i
    rw [perm.count_eq, perm.mem_iff]
    exact covers_elements ordered i

end Index

/-- The functor is called for 5, which is not below 3. -/
theorem parallelFor_calls_first :
    ¬ (Returns ⟨true, false⟩ (.create 0 4 (by decide)) 5 3 1 (by decide) ∧
      ∀ s, Reachable (parallelFor ⟨true, false⟩ (.create 0 4 (by decide)) 5 3 1 (by decide)) s →
        s.tasks = [] → Covers 5 3 1 s.outputs) := by
  rintro ⟨-, covers⟩
  obtain ⟨s, reached, isEmpty, called⟩ :=
    first_called_of_inverted ⟨true, false⟩ (.create 0 4 (by decide)) (show (0 : Int) < 1 by decide)
      (show (3 : Int) < 5 by decide)
  exact (covers s reached isEmpty 5).2 (not_isIndex_of_inverted (by decide)) called

theorem parallelFor_exact_odd :
    Returns ⟨true, false⟩ (.create 2 4 (by decide)) 1 10 2 (by decide) ∧
      ∀ s, Reachable (parallelFor ⟨true, false⟩ (.create 2 4 (by decide)) 1 10 2 (by decide)) s →
        s.tasks = [] → Covers 1 10 2 s.outputs :=
  (parallelFor_exact_iff ⟨true, false⟩ (.create 2 4 (by decide)) 1 10 2 (by decide)).mpr (by decide)

end CnC.Range
