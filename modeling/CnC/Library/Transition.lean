import Mathlib.Logic.Basic
import Mathlib.Tactic.Common

/-!
# Labelled transition systems

A system is given by its initial states and by an executable step function on
states and action labels.  `Reached` collects the states of all runs whose
steps meet a side condition; with the trivial condition these are the states
of all interleavings.  Invariants are proved by one rule, `Reached.invariant`.
-/

namespace Transition

universe u v

/-- Initial states and atomic steps.  An action that is not enabled in a state
has no successor there. -/
structure System (State : Type u) (Action : Type v) where
  Initial : State → Prop
  step : State → Action → Option State

variable {State : Type u} {Action : Type v}

/-- The states of the runs in which every step meets `allowed` in the state it
is taken from. -/
inductive Reached (system : System State Action)
    (allowed : State → Action → Prop) : State → Prop
  | initial {state} : system.Initial state → Reached system allowed state
  | step {state action next} :
      Reached system allowed state → allowed state action →
      system.step state action = some next → Reached system allowed next

abbrev Reachable (system : System State Action) : State → Prop :=
  Reached system fun _ _ => True

variable {system : System State Action} {allowed : State → Action → Prop}

/-- The invariant rule.  The step case may use that the state is reached, so
that invariants established before can be used for later ones. -/
theorem Reached.invariant (property : State → Prop)
    (base : ∀ state, system.Initial state → property state)
    (preserved : ∀ state action next, Reached system allowed state →
      property state → allowed state action →
      system.step state action = some next → property next)
    {state : State} (reached : Reached system allowed state) : property state := by
  induction reached with
  | initial start => exact base _ start
  | step before allows stepped inductionHypothesis =>
      exact preserved _ _ _ before inductionHypothesis allows stepped

theorem Reached.weaken {stronger : State → Action → Prop}
    (implies : ∀ state action, stronger state action → allowed state action)
    {state : State} (reached : Reached system stronger state) :
    Reached system allowed state := by
  induction reached with
  | initial start => exact .initial start
  | step _ allows stepped inductionHypothesis =>
      exact .step inductionHypothesis (implies _ _ allows) stepped

theorem Reached.reachable {state : State} (reached : Reached system allowed state) :
    Reachable system state :=
  reached.weaken fun _ _ _ => trivial

/-- Take the listed actions one after the other, as long as each of them is
enabled and meets the side condition. -/
def System.run (system : System State Action) (allowed : State → Action → Prop)
    [∀ state action, Decidable (allowed state action)] :
    State → List Action → Option State
  | state, [] => some state
  | state, action :: rest =>
      if allowed state action then
        (system.step state action).bind fun next => system.run allowed next rest
      else none

theorem Reached.run [∀ state action, Decidable (allowed state action)]
    {state next : State} (reached : Reached system allowed state)
    (actions : List Action) (computed : system.run allowed state actions = some next) :
    Reached system allowed next := by
  induction actions generalizing state with
  | nil =>
      simp only [System.run, Option.some.injEq] at computed
      exact computed ▸ reached
  | cons action rest inductionHypothesis =>
      simp only [System.run] at computed
      split at computed
      · rename_i allows
        rcases Option.bind_eq_some_iff.mp computed with ⟨middle, stepped, remaining⟩
        exact inductionHypothesis (reached.step allows stepped) remaining
      · cases computed

scoped instance neZero_one : @NeZero Nat Zero.ofOfNat0 1 := ⟨Nat.succ_ne_zero 0⟩

scoped instance neZero_two : @NeZero Nat Zero.ofOfNat0 2 := ⟨Nat.succ_ne_zero 1⟩

scoped instance neZero_three : @NeZero Nat Zero.ofOfNat0 3 := ⟨Nat.succ_ne_zero 2⟩

end Transition
