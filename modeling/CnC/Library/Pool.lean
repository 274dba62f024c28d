import Mathlib.Data.List.Flatten
import Mathlib.Data.List.Perm.Basic
import Mathlib.Tactic
import CnC.Library.Transition

/-!
# Pools of tasks

The tasks of a pool are run in any order.  Running a task produces outputs, and other
tasks which are left to the pool.  If what a task stands for is what it produces and what
its successors stand for, then the outputs of a pool do not depend on the order.
-/

namespace Pool

open Transition

universe u v

structure State (Task : Type u) (Output : Type v) where
  tasks : List Task
  outputs : List Output

variable {Task : Type u} {Output : Type v}

def step (run : Task → List Output × List Task) (s : State Task Output) (i : Nat) :
    Option (State Task Output) :=
  s.tasks[i]?.map fun task =>
    { tasks := (run task).2 ++ s.tasks.eraseIdx i, outputs := s.outputs ++ (run task).1 }

def system (run : Task → List Output × List Task) (root : Task) :
    System (State Task Output) Nat where
  Initial s := s = { tasks := [root], outputs := [] }
  step := step run

variable {run : Task → List Output × List Task} {root : Task} {s next : State Task Output} {i : Nat}

theorem step_cases (stepped : step run s i = some next) :
    ∃ task rest, s.tasks.Perm (task :: rest) ∧ next.tasks = (run task).2 ++ rest ∧
      next.outputs = s.outputs ++ (run task).1 := by
  obtain ⟨task, isTask, rfl⟩ := Option.map_eq_some_iff.mp stepped
  obtain ⟨inside, rfl⟩ := List.getElem?_eq_some_iff.mp isTask
  exact ⟨s.tasks[i], s.tasks.eraseIdx i, (List.getElem_cons_eraseIdx_perm inside).symm, rfl, rfl⟩

theorem conserved {pending : Task → List Output}
    (conserves : ∀ task, (pending task).Perm ((run task).1 ++ (run task).2.flatMap pending))
    (reached : Reachable (system run root) s) :
    (s.outputs ++ s.tasks.flatMap pending).Perm (pending root) := by
  refine reached.invariant (fun s => (s.outputs ++ s.tasks.flatMap pending).Perm (pending root)) ?_ ?_
  · rintro _ rfl
    simp
  · intro s i next _ perm _ stepped
    obtain ⟨task, rest, isRest, tasks, outputs⟩ := step_cases stepped
    refine List.Perm.trans ?_ perm
    rw [tasks, outputs, List.flatMap_append, List.append_assoc, ← List.append_assoc (run task).1]
    refine ((conserves task).symm.append_right _).append_left _ |>.trans ?_
    exact ((isRest.flatMap_right pending).symm).append_left _

section Termination

variable {weight : Task → Nat}

theorem weight_lt (decreases : ∀ task, ((run task).2.map weight).sum < weight task)
    (stepped : step run s i = some next) :
    (next.tasks.map weight).sum < (s.tasks.map weight).sum := by
  obtain ⟨task, rest, isRest, tasks, -⟩ := step_cases stepped
  rw [(isRest.map weight).sum_eq, tasks, List.map_append, List.sum_append, List.map_cons,
    List.sum_cons]
  exact Nat.add_lt_add_right (decreases task) _

theorem length_le (decreases : ∀ task, ((run task).2.map weight).sum < weight task)
    (actions : List Nat) (ran : (system run root).run (fun _ _ => True) s actions = some next) :
    actions.length ≤ (s.tasks.map weight).sum := by
  induction actions generalizing s with
  | nil => exact Nat.zero_le _
  | cons i rest inductionHypothesis =>
      simp only [System.run, if_true] at ran
      obtain ⟨middle, stepped, remaining⟩ := Option.bind_eq_some_iff.mp ran
      have fewer := weight_lt decreases stepped
      have := inductionHypothesis remaining
      rw [List.length_cons]
      omega

theorem step_zero (nonempty : s.tasks ≠ []) : ∃ next, step run s 0 = some next := by
  obtain ⟨task, rest, isTasks⟩ := List.exists_cons_of_ne_nil nonempty
  exact ⟨_, by rw [step, isTasks]; rfl⟩

theorem exists_empty (decreases : ∀ task, ((run task).2.map weight).sum < weight task)
    (reached : Reachable (system run root) s) :
    ∃ t, Reachable (system run root) t ∧ t.tasks = [] := by
  induction size : (s.tasks.map weight).sum using Nat.strong_induction_on generalizing s with
  | _ n inductionHypothesis =>
      subst size
      by_cases isEmpty : s.tasks = []
      · exact ⟨s, reached, isEmpty⟩
      · obtain ⟨next, stepped⟩ := step_zero isEmpty
        exact inductionHypothesis _ (weight_lt decreases stepped)
          (reached.step trivial stepped) rfl

end Termination

end Pool
