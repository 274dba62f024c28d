import Mathlib.Data.Set.Card
import Mathlib.Logic.Function.Basic
import Mathlib.Tactic

/-!
# Things at places

Every place holds at most one thing.  If everything is at no more than one place,
then `place` tells where it is, and this is kept when a thing moves to another
place, arrives or leaves.
-/

namespace Places

universe u v

variable {Place : Type u} {Thing : Type v} {holds next : Place → Option Thing}
  {place : Thing → Option Place} {p q : Place} {a b : Thing}

def Located (holds : Place → Option Thing) (place : Thing → Option Place) : Prop :=
  ∀ p a, holds p = some a ↔ place a = some p

namespace Located

theorem unique (located : Located holds place) (here : holds p = some a) (there : holds q = some a) :
    p = q := by
  have first := (located p a).mp here
  have second := (located q a).mp there
  rw [first] at second
  exact Option.some.inj second

theorem empty_of_unplaced (located : Located holds place) (unplaced : place a = none) (p : Place) :
    holds p ≠ some a := by
  intro here
  rw [(located p a).mp here] at unplaced
  cases unplaced

theorem congr (located : Located holds place) (same : ∀ r, next r = holds r) :
    Located next place := by
  intro r b
  rw [same]
  exact located r b

variable [DecidableEq Thing]

theorem enter (located : Located holds place) (unplaced : place a = none) (free : holds q = none)
    (here : next q = some a) (rest : ∀ r, r ≠ q → next r = holds r) :
    Located next (Function.update place a (some q)) := by
  intro r b
  by_cases same : b = a
  · subst same
    rw [Function.update_self]
    constructor
    · intro there
      by_contra elsewhere
      have notHere : r ≠ q := fun isHere => elsewhere (congrArg some isHere.symm)
      rw [rest r notHere] at there
      exact located.empty_of_unplaced unplaced r there
    · intro isHere
      rw [← Option.some.inj isHere]
      exact here
  · rw [Function.update_of_ne same, ← located r b]
    by_cases isHere : r = q
    · subst isHere
      rw [here, free]
      exact iff_of_false (fun equal => same (Option.some.inj equal).symm) (by simp)
    · rw [rest r isHere]

theorem leave (located : Located holds place) (found : holds p = some a) (left : next p = none)
    (rest : ∀ r, r ≠ p → next r = holds r) : Located next (Function.update place a none) := by
  intro r b
  by_cases same : b = a
  · subst same
    rw [Function.update_self]
    refine iff_of_false ?_ (by simp)
    intro there
    by_cases isLeft : r = p
    · subst isLeft
      rw [left] at there
      cases there
    · rw [rest r isLeft] at there
      exact isLeft (located.unique there found)
  · rw [Function.update_of_ne same, ← located r b]
    by_cases isLeft : r = p
    · subst isLeft
      rw [left, found]
      exact iff_of_false (by simp) fun equal => same (Option.some.inj equal).symm
    · rw [rest r isLeft]

theorem move (located : Located holds place) (found : holds p = some a) (different : p ≠ q)
    (free : holds q = none) (here : next q = some a) (left : next p = none)
    (rest : ∀ r, r ≠ p → r ≠ q → next r = holds r) :
    Located next (Function.update place a (some q)) := by
  classical
  have away : Located (Function.update holds p none) (Function.update place a none) :=
    located.leave found (Function.update_self ..) fun r notLeft => Function.update_of_ne notLeft ..
  have arrived : Located next (Function.update (Function.update place a none) a (some q)) := by
    refine away.enter (Function.update_self ..) ?_ here ?_
    · rw [Function.update_of_ne different.symm]
      exact free
    · intro r notHere
      by_cases isLeft : r = p
      · rw [isLeft, Function.update_self, left]
      · rw [Function.update_of_ne isLeft, rest r isLeft notHere]
  rwa [Function.update_idem] at arrived

end Located

end Places
