import Mathlib.Data.List.TakeWhile
import Mathlib.Tactic
import CnC.Library.Transition
import CnC.Scheduler.Schedulable

/-!
# The sub-steps of a range

A range instance executes its sub-steps one after the other.  With dependency checks,
the status of each tag tells whether its sub-step is done, and a range in which some of
them are not done is executed again.
-/

namespace CnC.Range

open Transition CnC.Scheduler

/-- `UNPREPARED`, `PREPARED` and `DONE`. -/
inductive TagStatus where
  | unprepared
  | prepared
  | done
  deriving DecidableEq, Repr

/-- What `execute_from_range` returns. -/
inductive SubResult where
  | success
  | unfinished
  | needsSequentialize
  deriving DecidableEq, Repr

/-- What a range cannot foresee: the result of each execution of a sub-step, and the value
of each read of `num_suspends`. -/
structure Outside where
  results : Nat → SubResult
  suspends : Nat → Int

/-- The members of a range instance.  `statuses` is `NULL` before the first execution.
`log` holds the tags whose sub-steps were executed, by their positions, with the
results; `reads` counts the reads of `num_suspends`. -/
structure Instance where
  statuses : Option (List TagStatus)
  log : List (Nat × SubResult)
  reads : Nat

/-- `m_last` and `_last`, where `none` is `INT_MAX`: no position is larger. -/
abbrev Last := Option Nat

def Last.allows (last : Last) (p : Nat) : Bool :=
  last.all fun bound => p ≤ bound

/-- The variables of `execute` within its loop. -/
structure Loop where
  statuses : List TagStatus
  log : List (Nat × SubResult)
  reads : Nat
  numsus1 : Int
  numreplay : Nat
  last : Last
  nseq : Bool
  mLast : Last

section Definitions

variable (outside : Outside)

/-- `prepare_from_range` executes the sub-step if the tuner prescribes it, and tells
whether it has still to be executed. -/
def prepareFromRange (preschedule : Bool) (log : List (Nat × SubResult)) (p : Nat) :
    Bool × List (Nat × SubResult) :=
  if preschedule then
    let rv := outside.results log.length
    (decide (rv ≠ .success), log ++ [(p, rv)])
  else (true, log)

/-- One iteration of the loop of `prepare`. -/
def prepareTag (preschedule : Bool) (s : List TagStatus × List (Nat × SubResult)) (p : Nat) :
    List TagStatus × List (Nat × SubResult) :=
  let (ret, log) := prepareFromRange outside preschedule s.2 p
  (s.1.set p (if ret then .prepared else .done), log)

/-- `prepare` of a range of the given size, whose iterators visit `n` tags. -/
def prepare (preschedule : Bool) (size n : Nat) (log : List (Nat × SubResult)) :
    List TagStatus × List (Nat × SubResult) :=
  (List.range n).foldl (prepareTag outside preschedule) (List.replicate size .unprepared, log)

/-- One iteration of the inner loop of `execute`. -/
def visit (s : Loop) (p : Nat) : Loop :=
  if s.statuses[p]? = some .done then s
  else
    let rv := outside.results s.log.length
    let s := { s with log := s.log ++ [(p, rv)] }
    match rv with
    | .unfinished => { s with numreplay := s.numreplay + 1, last := some p }
    | .needsSequentialize => { s with numreplay := s.numreplay + 1, nseq := true }
    | .success => { s with statuses := s.statuses.set p .done }

def pass (n : Nat) (s : Loop) : Loop :=
  let s := ((List.range n).takeWhile s.mLast.allows).foldl (visit outside) { s with numreplay := 0 }
  match s.last, s.mLast with
  | some last, none => { s with mLast := some last }
  | some last, some bound => if last < bound then { s with mLast := some last } else s
  | none, _ => s

/-- The `do` loop of `execute`, with the states in which its passes begin. -/
def loop (n : Nat) : Nat → Loop → Option (Loop × List Loop)
  | 0, _ => none
  | fuel + 1, s =>
      let start := s
      let s := pass outside n s
      let numsus2 := s.numsus1
      let s := { s with numsus1 := outside.suspends s.reads, reads := s.reads + 1 }
      if s.nseq = false ∧ numsus2 > s.numsus1 - s.numreplay then
        (loop n fuel s).map fun (s, starts) => (s, start :: starts)
      else some (s, [start])

def Loop.start (inst : Instance) (statuses : List TagStatus) : Loop where
  statuses := statuses
  log := inst.log
  reads := inst.reads + 1
  numsus1 := outside.suspends inst.reads
  numreplay := 0
  last := none
  nseq := false
  mLast := none

/-- `range_step::execute`. -/
def execute (n fuel : Nat) (inst : Instance) (statuses : List TagStatus) :
    Option (StepReturnValue × Instance) :=
  (loop outside n fuel (Loop.start outside inst statuses)).map fun (s, _) =>
    (if s.numreplay > 0 then (if s.nseq then .needsSequentialize else .needsExtraWake)
      else .success,
      { statuses := some s.statuses, log := s.log, reads := s.reads })

def Instance.prepared (preschedule : Bool) (size n : Nat) (inst : Instance) :
    Instance × List TagStatus × Bool :=
  match inst.statuses with
  | some statuses => (inst, statuses, true)
  | none =>
      let (statuses, log) := prepare outside preschedule size n inst.log
      ({ statuses := some statuses, log := log, reads := inst.reads + 1 }, statuses,
        !decide (outside.suspends inst.reads > 1))

/-- `range_step_instance::execute` after the range was divided. -/
def Instance.execute (preschedule : Bool) (size n : Nat) (inst : Instance) (fuel : Nat) :
    Option (StepReturnValue × Instance) :=
  let (inst, statuses, goes) := inst.prepared outside preschedule size n
  if goes then Range.execute outside n fuel inst statuses else some (.unfinished, inst)

end Definitions

def Instance.create : Instance :=
  { statuses := none, log := [], reads := 0 }

/-- The executions of a range instance with `n` tags. -/
def subSteps (outside : Outside) (preschedule : Bool) (n : Nat) : System Instance Nat where
  Initial inst := inst = .create
  step inst fuel := (inst.execute outside preschedule n n fuel).map Prod.snd

/-- A tag is done if and only if its sub-step has succeeded, and then it is not executed
again. -/
structure Consistent (n : Nat) (statuses : List TagStatus) (log : List (Nat × SubResult)) :
    Prop where
  length : statuses.length = n
  done : ∀ p, statuses[p]? = some .done ↔ (p, .success) ∈ log
  once : log.Pairwise fun first second => first.2 = .success → second.1 ≠ first.1

namespace Consistent

variable {n p : Nat} {statuses : List TagStatus} {log : List (Nat × SubResult)}

theorem execute (consistent : Consistent n statuses log) (inside : p < n)
    (notDone : statuses[p]? ≠ some .done) (rv : SubResult) (status : TagStatus)
    (isStatus : status = .done ↔ rv = .success) :
    Consistent n (statuses.set p status) (log ++ [(p, rv)]) where
  length := by rw [List.length_set, consistent.length]
  done q := by
    rw [List.mem_append, List.mem_singleton, Prod.mk.injEq]
    by_cases same : q = p
    · subst same
      have notYet : (q, SubResult.success) ∉ log := (consistent.done q).not.mp notDone
      rw [List.getElem?_set_self (consistent.length.symm ▸ inside), Option.some_inj, isStatus]
      exact ⟨fun succeeded => .inr ⟨rfl, succeeded.symm⟩,
        fun found => (found.resolve_left notYet).2.symm⟩
    · rw [List.getElem?_set_ne (Ne.symm same), consistent.done]
      simp [same]
  once := by
    refine List.pairwise_append.mpr ⟨consistent.once, by simp, ?_⟩
    rintro ⟨q, result⟩ before _ after
    rw [List.mem_singleton] at after
    subst after
    rintro rfl rfl
    exact notDone ((consistent.done p).mpr before)

theorem mark (consistent : Consistent n statuses log) (notDone : statuses[p]? ≠ some .done) :
    Consistent n (statuses.set p .prepared) log where
  length := by rw [List.length_set, consistent.length]
  done q := by
    by_cases same : q = p
    · subst same
      refine iff_of_false ?_ ((consistent.done q).not.mp notDone)
      rw [List.getElem?_set_self']
      cases statuses[q]? <;> simp
    · rw [List.getElem?_set_ne (Ne.symm same), consistent.done]
  once := consistent.once

theorem fail (consistent : Consistent n statuses log) (notDone : statuses[p]? ≠ some .done)
    {rv : SubResult} (failed : rv ≠ .success) : Consistent n statuses (log ++ [(p, rv)]) where
  length := consistent.length
  done q := by
    rw [List.mem_append, List.mem_singleton, Prod.mk.injEq, consistent.done]
    simp [failed.symm]
  once := by
    refine List.pairwise_append.mpr ⟨consistent.once, by simp, ?_⟩
    rintro ⟨q, result⟩ before _ after
    rw [List.mem_singleton] at after
    subst after
    rintro rfl rfl
    exact notDone ((consistent.done p).mpr before)

end Consistent

section Passes

variable {outside : Outside} {preschedule : Bool} {n k : Nat} {old s : Loop}

theorem prepare_consistent (outside : Outside) (preschedule : Bool) (n : Nat) :
    Consistent n (prepare outside preschedule n n []).1 (prepare outside preschedule n n []).2 := by
  have upTo : ∀ k, k ≤ n →
      let s := (List.range k).foldl (prepareTag outside preschedule)
        (List.replicate n TagStatus.unprepared, [])
      Consistent n s.1 s.2 ∧ ∀ p, k ≤ p → s.1[p]? ≠ some .done := by
    intro k
    induction k with
    | zero =>
        refine fun _ => ⟨⟨List.length_replicate, fun p => ?_, List.Pairwise.nil⟩, fun p _ => ?_⟩
        · simp [List.getElem?_replicate]
        · simp [List.getElem?_replicate]
    | succ k inductionHypothesis =>
        intro inside
        rw [List.range_succ, List.foldl_append, List.foldl_cons, List.foldl_nil]
        obtain ⟨consistent, open_⟩ := inductionHypothesis (by omega)
        generalize (List.range k).foldl (prepareTag outside preschedule) _ = s at consistent open_
        have notDone := open_ k le_rfl
        have later : ∀ status p, k + 1 ≤ p → (s.1.set k status)[p]? ≠ some .done := by
          intro status p after
          rw [List.getElem?_set_ne (by omega)]
          exact open_ p (by omega)
        unfold prepareTag prepareFromRange
        cases preschedule with
        | false => exact ⟨consistent.mark notDone, later _⟩
        | true =>
            refine ⟨consistent.execute inside notDone _ _ ?_, later _⟩
            cases outside.results s.2.length <;> simp
  exact (upTo n le_rfl).1

/-- The state within a pass, after the first `k` tags. -/
structure Visited (n k : Nat) (old s : Loop) : Prop where
  consistent : Consistent n s.statuses s.log
  keeps : ∀ p : Nat, old.statuses[p]? = some .done → s.statuses[p]? = some .done
  later : ∀ p : Nat, k ≤ p → s.statuses[p]? = old.statuses[p]?
  grows : ∃ new, s.log = old.log ++ new ∧
    ∀ p : Nat, p < k → old.statuses[p]? ≠ some .done → ∃ rv, (p, rv) ∈ new
  replay : s.numreplay = 0 ↔ ∀ p : Nat, p < k → s.statuses[p]? = some .done
  open_ : ∀ p : Nat, p < k → s.statuses[p]? ≠ some .done →
    s.nseq = true ∨ ∃ last, s.last = some last ∧ p ≤ last
  last : s.last = old.last ∨ ∃ last, s.last = some last ∧ last < k
  mLast : s.mLast = old.mLast

theorem Visited.visit (visited : Visited n k old s) (inside : k < n) :
    Visited n (k + 1) old (visit outside s k) := by
  obtain ⟨new, isLog, executed⟩ := visited.grows
  have upTo : ∀ p, p < k + 1 → p < k ∨ p = k := fun p below => by omega
  have grew : ∀ rv, (∀ p : Nat, p < k + 1 → old.statuses[p]? ≠ some .done →
      ∃ result, (p, result) ∈ new ++ [(k, rv)]) := by
    intro rv p below notDone
    rcases upTo p below with before | rfl
    · obtain ⟨result, member⟩ := executed p before notDone
      exact ⟨result, List.mem_append_left _ member⟩
    · exact ⟨rv, by simp⟩
  by_cases isDone : s.statuses[k]? = some .done
  · have same : Range.visit outside s k = s := if_pos isDone
    rw [same]
    refine ⟨visited.consistent, visited.keeps, fun p after => visited.later p (by omega),
      ⟨new, isLog, fun p below notDone => ?_⟩, ?_, fun p below notDone => ?_, ?_, visited.mLast⟩
    · rcases upTo p below with before | rfl
      · exact executed p before notDone
      · rw [visited.later p le_rfl] at isDone
        exact absurd isDone notDone
    · rw [visited.replay]
      refine ⟨fun done p below => ?_, fun done p below => done p (by omega)⟩
      rcases upTo p below with before | rfl
      · exact done p before
      · exact isDone
    · rcases upTo p below with before | rfl
      · exact visited.open_ p before notDone
      · exact absurd isDone notDone
    · refine visited.last.imp_right ?_
      rintro ⟨last, isLast, below⟩
      exact ⟨last, isLast, by omega⟩
  · have failed : ¬ ∀ p : Nat, p < k + 1 → s.statuses[p]? = some .done := fun done =>
      isDone (done k (by omega))
    have longer : ∀ rv, s.log ++ [(k, rv)] = old.log ++ (new ++ [(k, rv)]) := by
      intro rv
      rw [isLog, List.append_assoc]
    unfold Range.visit
    rw [if_neg isDone]
    cases result : outside.results s.log.length with
    | unfinished =>
        refine ⟨visited.consistent.fail isDone nofun, visited.keeps,
          fun p after => visited.later p (by omega), ⟨_, longer .unfinished, grew _⟩, ?_, ?_, ?_,
          visited.mLast⟩
        · exact iff_of_false (Nat.succ_ne_zero _) failed
        · exact fun p below _ => .inr ⟨k, rfl, by omega⟩
        · exact .inr ⟨k, rfl, Nat.lt_succ_self k⟩
    | needsSequentialize =>
        refine ⟨visited.consistent.fail isDone nofun, visited.keeps,
          fun p after => visited.later p (by omega), ⟨_, longer .needsSequentialize, grew _⟩, ?_,
          fun _ _ _ => .inl rfl, ?_, visited.mLast⟩
        · exact iff_of_false (Nat.succ_ne_zero _) failed
        · refine visited.last.imp_right ?_
          rintro ⟨last, isLast, below⟩
          exact ⟨last, isLast, by omega⟩
    | success =>
        have others : ∀ p : Nat, p ≠ k → (s.statuses.set k .done)[p]? = s.statuses[p]? :=
          fun p different => List.getElem?_set_ne (Ne.symm different)
        have here : (s.statuses.set k .done)[k]? = some .done :=
          List.getElem?_set_self (visited.consistent.length.symm ▸ inside)
        refine ⟨visited.consistent.execute inside isDone .success .done (by simp), fun p wasDone => ?_,
          fun p after => ?_, ⟨_, longer .success, grew _⟩, ?_, fun p below notDone => ?_, ?_,
          visited.mLast⟩
        · by_cases same : p = k
          · exact same ▸ here
          · exact (others p same).trans (visited.keeps p wasDone)
        · exact (others p (by omega)).trans (visited.later p (by omega))
        · refine visited.replay.trans ⟨fun done p below => ?_, fun done p below => ?_⟩
          · rcases upTo p below with before | rfl
            · exact (others p (by omega)).trans (done p before)
            · exact here
          · rw [← others p (by omega)]
            exact done p (by omega)
        · rcases upTo p below with before | rfl
          · rw [others p (by omega)] at notDone
            exact visited.open_ p before notDone
          · exact absurd here notDone
        · refine visited.last.imp_right ?_
          rintro ⟨last, isLast, below⟩
          exact ⟨last, isLast, by omega⟩

structure Begins (n : Nat) (s : Loop) : Prop where
  consistent : Consistent n s.statuses s.log
  skips : ∀ p, p < n → s.mLast.allows p = false → s.statuses[p]? = some .done
  last : s.last = s.mLast
  nseq : s.nseq = false

theorem takeWhile_allows (last : Last) (n : Nat) : ∃ k, k ≤ n ∧
    (List.range n).takeWhile last.allows = List.range k ∧
      ∀ p, p < n → (p < k ↔ last.allows p = true) := by
  cases last with
  | none =>
      have all : Last.allows none = fun _ => true := rfl
      refine ⟨n, le_rfl, ?_, fun p inside => by simp [inside, all]⟩
      exact List.takeWhile_eq_self_iff.mpr fun _ _ => rfl
  | some bound =>
      have upTo : n = min n (bound + 1) + (n - min n (bound + 1)) := by omega
      refine ⟨min n (bound + 1), by omega, ?_, fun p inside => ?_⟩
      · conv_lhs => rw [upTo, List.range_add]
        rw [List.takeWhile_append_of_pos]
        · cases rest : n - min n (bound + 1) with
          | zero => simp
          | succ m =>
              have isBound : min n (bound + 1) = bound + 1 := by omega
              simp [List.range_succ_eq_map, Last.allows, isBound]
        · intro p below
          rw [List.mem_range] at below
          simp [Last.allows]
          omega
      · simp [Last.allows]
        omega

theorem pass_spec (outside : Outside) (begins : Begins n s) :
    Consistent n (pass outside n s).statuses (pass outside n s).log ∧
      ((pass outside n s).numreplay = 0 ↔
        ∀ p, p < n → (pass outside n s).statuses[p]? = some .done) ∧
      (∃ new, (pass outside n s).log = s.log ++ new ∧
        ∀ p, p < n → s.statuses[p]? ≠ some .done → ∃ rv, (p, rv) ∈ new) ∧
      ((pass outside n s).nseq = false → Begins n (pass outside n s)) := by
  obtain ⟨k, inside, isRange, visits⟩ := takeWhile_allows s.mLast n
  have fold : ∀ j, j ≤ k → Visited n j s
      ((List.range j).foldl (visit outside) { s with numreplay := 0 }) := by
    intro j
    induction j with
    | zero =>
        refine fun _ => ⟨begins.consistent, fun _ => id, fun _ _ => rfl,
          ⟨[], (List.append_nil _).symm, nofun⟩, iff_of_true rfl nofun, nofun, .inl rfl, rfl⟩
    | succ j inductionHypothesis =>
        intro below
        rw [List.range_succ, List.foldl_append, List.foldl_cons, List.foldl_nil]
        exact (inductionHypothesis (by omega)).visit (by omega)
  have visited := fold k le_rfl
  generalize isEnd : (List.range k).foldl (visit outside) { s with numreplay := 0 } = s' at visited
  have ends : (pass outside n s).statuses = s'.statuses ∧ (pass outside n s).log = s'.log ∧
      (pass outside n s).numreplay = s'.numreplay ∧ (pass outside n s).nseq = s'.nseq ∧
      (pass outside n s).last = s'.last ∧ (pass outside n s).mLast = s'.last := by
    have bounded : ∀ bound, s'.mLast = some bound → ∃ last, s'.last = some last ∧ last ≤ bound := by
      intro bound isBound
      rw [visited.mLast] at isBound
      rcases visited.last with same | ⟨last, isLast, below⟩
      · exact ⟨bound, by rw [same, begins.last, isBound], le_rfl⟩
      · have allowed := (visits last (by omega)).mp below
        rw [isBound] at allowed
        exact ⟨last, isLast, by simpa [Last.allows] using allowed⟩
    rw [pass, isRange, isEnd]
    cases isLast : s'.last with
    | none =>
        cases isBound : s'.mLast with
        | none => simp [isLast]
        | some bound =>
            obtain ⟨last, impossible, -⟩ := bounded bound isBound
            rw [isLast] at impossible
            cases impossible
    | some last =>
        cases isBound : s'.mLast with
        | none => simp
        | some bound =>
            obtain ⟨same, isSame, within⟩ := bounded bound isBound
            rw [isLast] at isSame
            cases isSame
            by_cases below : last < bound
            · simp [below]
            · have equal : last = bound := by omega
              simp [isLast, isBound, equal]
  obtain ⟨statuses, log, numreplay, nseq, last, mLast⟩ := ends
  have skipped : ∀ p, p < n → k ≤ p → s'.statuses[p]? = some .done := by
    intro p isTag after
    refine visited.keeps p (begins.skips p isTag ?_)
    by_contra allowed
    simp only [Bool.not_eq_false] at allowed
    exact absurd ((visits p isTag).mpr allowed) (by omega)
  rw [statuses, log, numreplay, nseq]
  refine ⟨visited.consistent, ?_, ?_, fun parallel => ⟨?_, ?_, ?_, ?_⟩⟩
  · rw [visited.replay]
    refine ⟨fun done p isTag => ?_, fun done p below => done p (by omega)⟩
    by_cases below : p < k
    · exact done p below
    · exact skipped p isTag (by omega)
  · obtain ⟨new, isLog, executed⟩ := visited.grows
    refine ⟨new, isLog, fun p isTag notDone => executed p ?_ notDone⟩
    by_contra after
    refine notDone (begins.skips p isTag ?_)
    by_contra allowed
    simp only [Bool.not_eq_false] at allowed
    exact absurd ((visits p isTag).mpr allowed) (by omega)
  · rw [statuses, log]
    exact visited.consistent
  · intro p isTag isSkipped
    rw [statuses]
    rw [mLast] at isSkipped
    by_cases below : p < k
    · by_contra notDone
      rcases visited.open_ p below notDone with sequential | ⟨bound, isLast, within⟩
      · rw [parallel] at sequential
        cases sequential
      · rw [isLast] at isSkipped
        simp [Last.allows] at isSkipped
        omega
    · exact skipped p isTag (by omega)
  · rw [last, mLast]
  · rw [nseq]
    exact parallel

theorem loop_spec (fuel : Nat) {starts : List Loop} {s' : Loop} (begins : Begins n s)
    (ran : loop outside n fuel s = some (s', starts)) :
    Consistent n s'.statuses s'.log ∧
      (s'.numreplay = 0 ↔ ∀ p, p < n → s'.statuses[p]? = some .done) ∧
      (∃ new, s'.log = s.log ++ new ∧
        ∀ p, p < n → s.statuses[p]? ≠ some .done → ∃ rv, (p, rv) ∈ new) ∧
      ∀ t ∈ starts, Begins n t := by
  induction fuel generalizing s starts with
  | zero => cases ran
  | succ fuel inductionHypothesis =>
      obtain ⟨consistent, decides, ⟨new, isLog, executed⟩, again⟩ :=
        pass_spec outside begins
      simp only [loop] at ran
      split at ran
      · rename_i goesOn
        obtain ⟨⟨last, others⟩, isRest, isEnd⟩ := Option.map_eq_some_iff.mp ran
        cases isEnd
        have next := again goesOn.1
        obtain ⟨lastConsistent, lastDecides, ⟨more, isMore, -⟩, lastBegins⟩ :=
          inductionHypothesis (s := { pass outside n s with
            numsus1 := outside.suspends (pass outside n s).reads
            reads := (pass outside n s).reads + 1 })
            ⟨next.consistent, next.skips, next.last, next.nseq⟩ isRest
        refine ⟨lastConsistent, lastDecides, ⟨new ++ more, ?_, fun p isTag notDone => ?_⟩, ?_⟩
        · rw [isMore, isLog, List.append_assoc]
        · obtain ⟨rv, member⟩ := executed p isTag notDone
          exact ⟨rv, List.mem_append_left _ member⟩
        · intro t member
          rcases List.mem_cons.mp member with rfl | member
          · exact begins
          · exact lastBegins t member
      · cases ran
        refine ⟨consistent, decides, ⟨new, isLog, executed⟩, fun t member => ?_⟩
        rw [List.mem_singleton] at member
        exact member ▸ begins

end Passes

section Runs

variable {outside : Outside} {preschedule : Bool} {n : Nat} {inst : Instance}

def Instance.Consistent (n : Nat) (inst : Instance) : Prop :=
  match inst.statuses with
  | some statuses => Range.Consistent n statuses inst.log
  | none => inst.log = []

theorem prepared_consistent (outside : Outside) (preschedule : Bool) (consistent : inst.Consistent n) :
    Range.Consistent n (inst.prepared outside preschedule n n).2.1
        (inst.prepared outside preschedule n n).1.log ∧
      (inst.prepared outside preschedule n n).1.statuses =
        some (inst.prepared outside preschedule n n).2.1 := by
  obtain ⟨statuses, log, reads⟩ := inst
  cases statuses with
  | some statuses => exact ⟨consistent, rfl⟩
  | none =>
      cases (consistent : log = [])
      exact ⟨prepare_consistent outside preschedule n, rfl⟩

theorem begins_start (outside : Outside) {statuses : List TagStatus}
    (consistent : Range.Consistent n statuses inst.log) :
    Begins n (Loop.start outside inst statuses) :=
  ⟨consistent, nofun, rfl, rfl⟩

theorem consistent_of_reached (reached : Reachable (subSteps outside preschedule n) inst) :
    inst.Consistent n := by
  refine reached.invariant (Instance.Consistent n) ?_ ?_
  · rintro _ rfl
    rfl
  · intro inst fuel next _ consistent _ stepped
    obtain ⟨⟨rv, after⟩, executed, rfl⟩ := Option.map_eq_some_iff.mp stepped
    obtain ⟨prepared, isSome⟩ := prepared_consistent outside preschedule consistent
    simp only [Instance.execute] at executed
    split at executed
    · obtain ⟨⟨last, starts⟩, ran, isNext⟩ := Option.map_eq_some_iff.mp executed
      cases isNext
      exact (loop_spec fuel (begins_start outside prepared) ran).1
    · cases executed
      simp only [Instance.Consistent, isSome]
      exact prepared

/-- A range executes every tag to success exactly once. -/
theorem subSteps_correct (reached : Reachable (subSteps outside preschedule n) inst) :
    (inst.log.Pairwise fun first second => first.2 = .success → second.1 ≠ first.1) ∧
      ∀ start statuses goes, inst.prepared outside preschedule n n = (start, statuses, goes) →
        (∀ fuel rv next, Range.execute outside n fuel start statuses = some (rv, next) →
          ∃ last new, next.statuses = some last ∧ next.log = start.log ++ new ∧
            (rv = .success ↔ ∀ p, p < n → last[p]? = some .done) ∧
            ∀ p, p < n → statuses[p]? ≠ some .done → ∃ result, (p, result) ∈ new) ∧
        ∀ fuel last starts, loop outside n fuel (Loop.start outside start statuses) =
            some (last, starts) →
          ∀ begun ∈ starts, ∀ p, p < n → begun.mLast.allows p = false →
            begun.statuses[p]? = some .done := by
  have consistent := consistent_of_reached reached
  refine ⟨?_, fun start statuses goes isPrepared => ?_⟩
  · obtain ⟨statuses, log, reads⟩ := inst
    cases statuses with
    | some statuses => exact Range.Consistent.once consistent
    | none =>
        cases (consistent : log = [])
        exact List.Pairwise.nil
  · have prepared := (prepared_consistent outside preschedule consistent).1
    rw [isPrepared] at prepared
    have begins := begins_start outside prepared
    refine ⟨fun fuel rv next executed => ?_, fun fuel last starts ran begun member p => ?_⟩
    · obtain ⟨⟨last, starts⟩, ran, isNext⟩ := Option.map_eq_some_iff.mp executed
      cases isNext
      obtain ⟨-, decides, ⟨new, isLog, all⟩, -⟩ := loop_spec fuel begins ran
      refine ⟨last.statuses, new, rfl, isLog, ?_, all⟩
      rw [← decides]
      split
      · rename_i replayed
        split <;> simp [Nat.ne_of_gt replayed]
      · simp
        omega
    · exact ((loop_spec fuel begins ran).2.2.2 begun member).skips p

end Runs

def failsOnce : Outside where
  results k := if k = 0 then .unfinished else .success
  suspends _ := 1

theorem subSteps_correct_failsOnce :
    ∃ inst, (subSteps failsOnce false 2).run (fun _ _ => True)
        .create [2] = some inst ∧
      inst.log = [(0, .unfinished), (1, .success), (0, .success)] ∧
      inst.log.Pairwise fun first second => first.2 = .success → second.1 ≠ first.1 := by
  have reached : Reachable (subSteps failsOnce false 2) _ := Reached.run (.initial rfl) [2] rfl
  exact ⟨_, rfl, rfl, (subSteps_correct reached).1⟩

end CnC.Range
