import CnC.Scheduler.Successor

/-!
# The steps in flight

Every call of `schedule` which counts a step has a number.  Until its step is counted
down, the number is at one place: in the call itself, in the queue, at a successor, or
in a pass, and the pass is the only one which starts for this call.
-/

namespace CnC.Execute

open Transition CnC.Scheduler Places

universe u

variable {Step Item Thread : Type u}

def Phase.counted : Phase Step → Bool
  | .begin | .executing | .returned _ | .read _ _ | .again _ | .failed _ => true
  | .delete _ | .clear _ | .mark _ | .next _ => false

def Call.job : Call Step Item → Option (Step × Nat)
  | .hang step ticket _ | .enqueue step ticket _ | .write step ticket _ => some (step, ticket)
  | _ => none

section Steps

variable [DecidableEq Step]

def State.job (s : State Step Item Thread) : Place Thread → Option (Step × Nat)
  | .queue ticket => (s.queue ticket).map fun step => (step, ticket)
  | .pass thread => (s.pass thread).bind fun pass =>
      if pass.phase.counted then some (pass.step, pass.ticket) else none
  | .succ thread => s.successor thread
  | .call thread => (s.call thread).bind Call.job

def State.ticketAt (s : State Step Item Thread) (place : Place Thread) : Option Nat :=
  (s.job place).map Prod.snd

def State.open_ (s : State Step Item Thread) : Finset Nat :=
  (Finset.range s.history.calls.length).filter fun ticket => s.history.ended ticket = 0

def Place.isPass : Place Thread → Bool
  | .pass _ => true
  | _ => false

structure Booked (s : State Step Item Thread) (ledger : Nat → Option (Place Thread)) : Prop where
  located : Located s.ticketAt ledger
  target : ∀ p step ticket, s.job p = some (step, ticket) →
    s.history.calls[ticket]? = some step
  running : ∀ ticket p, ledger ticket = some p → s.history.ended ticket = 0 ∧
    s.history.started ticket = if p.isPass then s.history.calls[ticket]?.toList else []
  finished : ∀ ticket, ticket < s.history.calls.length → ledger ticket = none →
    s.history.ended ticket = 1 ∧ s.history.started ticket = s.history.calls[ticket]?.toList
  later : ∀ ticket, s.history.calls.length ≤ ticket →
    s.history.started ticket = [] ∧ s.history.ended ticket = 0
  inFlight : s.userStepsInFlight = s.waiters + s.open_.card

variable {s next : State Step Item Thread} {ledger : Nat → Option (Place Thread)}
  {step : Step} {ticket : Nat}

namespace Booked

theorem ticketAt_of_job {p : Place Thread} (here : s.job p = some (step, ticket)) :
    s.ticketAt p = some ticket := by
  rw [State.ticketAt, here]
  rfl

theorem lt_length (booked : Booked s ledger) {p : Place Thread}
    (here : s.job p = some (step, ticket)) : ticket < s.history.calls.length :=
  (List.getElem?_eq_some_iff.mp (booked.target p step ticket here)).1

theorem same (booked : Booked s ledger) (jobs : ∀ p, next.job p = s.job p)
    (calls : next.history.calls = s.history.calls)
    (started : next.history.started = s.history.started)
    (ended : next.history.ended = s.history.ended)
    (inFlight : next.userStepsInFlight - next.waiters = s.userStepsInFlight - s.waiters) :
    Booked next ledger where
  located := booked.located.congr fun p => by rw [State.ticketAt, jobs, State.ticketAt]
  target p step ticket here := by
    rw [jobs] at here
    rw [calls]
    exact booked.target p step ticket here
  running := by
    rw [calls, started, ended]
    exact booked.running
  finished := by
    rw [calls, started, ended]
    exact booked.finished
  later := by
    rw [calls, started, ended]
    exact booked.later
  inFlight := by
    have before := booked.inFlight
    have sameOpen : next.open_ = s.open_ := by rw [State.open_, State.open_, calls, ended]
    rw [sameOpen]
    linarith

theorem move (booked : Booked s ledger) {p q : Place Thread}
    (here : s.job p = some (step, ticket)) (different : p ≠ q) (free : s.job q = none)
    (there : next.job q = some (step, ticket)) (left : next.job p = none)
    (rest : ∀ r, r ≠ p → r ≠ q → next.job r = s.job r) (notPass : p.isPass = false)
    (calls : next.history.calls = s.history.calls)
    (ended : next.history.ended = s.history.ended)
    (started : next.history.started = if q.isPass then
      Function.update s.history.started ticket (step :: s.history.started ticket)
      else s.history.started)
    (inFlight : next.userStepsInFlight - next.waiters = s.userStepsInFlight - s.waiters) :
    Booked next (Function.update ledger ticket (some q)) := by
  have isTarget := booked.target p step ticket here
  have found := ticketAt_of_job here
  have isPlace := (booked.located _ _).mp found
  have startedOther : ∀ other, other ≠ ticket →
      next.history.started other = s.history.started other := by
    intro other notThis
    rw [started]
    split
    · rw [Function.update_of_ne notThis]
    · rfl
  refine ⟨?_, ?_, ?_, ?_, ?_, ?_⟩
  · refine booked.located.move found different ?_ (ticketAt_of_job there) ?_ ?_
    · rw [State.ticketAt, free]
      rfl
    · rw [State.ticketAt, left]
      rfl
    · intro r notP notQ
      rw [State.ticketAt, rest r notP notQ, State.ticketAt]
  · intro r other number isJob
    rw [calls]
    by_cases isQ : r = q
    · rw [isQ, there] at isJob
      cases isJob
      exact isTarget
    · by_cases isP : r = p
      · rw [isP, left] at isJob
        cases isJob
      · rw [rest r isP isQ] at isJob
        exact booked.target r other number isJob
  · intro other r isAt
    rw [calls, ended]
    by_cases same : other = ticket
    · subst same
      rw [Function.update_self] at isAt
      cases isAt
      obtain ⟨open_, before⟩ := booked.running other p isPlace
      rw [notPass] at before
      refine ⟨open_, ?_⟩
      rw [started]
      split
      · rw [Function.update_self, before, isTarget]
        rfl
      · exact before
    · rw [Function.update_of_ne same] at isAt
      rw [startedOther other same]
      exact booked.running other r isAt
  · intro other inside isAt
    rw [calls] at inside ⊢
    by_cases same : other = ticket
    · simp [same] at isAt
    · rw [Function.update_of_ne same] at isAt
      rw [ended, startedOther other same]
      exact booked.finished other inside isAt
  · intro other outside
    rw [calls] at outside
    have notThis : other ≠ ticket := by
      rintro rfl
      exact absurd (booked.lt_length here) (by omega)
    rw [ended, startedOther other notThis]
    exact booked.later other outside
  · have before := booked.inFlight
    have sameOpen : next.open_ = s.open_ := by rw [State.open_, State.open_, calls, ended]
    rw [sameOpen]
    linarith

theorem count (booked : Booked s ledger) {q : Place Thread} (free : s.job q = none)
    (there : next.job q = some (step, s.history.calls.length))
    (rest : ∀ r, r ≠ q → next.job r = s.job r) (notPass : q.isPass = false)
    (calls : next.history.calls = s.history.calls ++ [step])
    (started : next.history.started = s.history.started)
    (ended : next.history.ended = s.history.ended)
    (inFlight : next.userStepsInFlight = s.userStepsInFlight + 1)
    (waiters : next.waiters = s.waiters) :
    Booked next (Function.update ledger s.history.calls.length (some q)) := by
  have fresh : ledger s.history.calls.length = none := by
    cases isPlace : ledger s.history.calls.length with
    | none => rfl
    | some p =>
        have there := (booked.located _ _).mpr isPlace
        obtain ⟨⟨other, number⟩, isJob, rfl⟩ := Option.map_eq_some_iff.mp there
        exact absurd (booked.lt_length isJob) (lt_irrefl _)
  refine ⟨?_, ?_, ?_, ?_, ?_, ?_⟩
  · refine booked.located.enter fresh ?_ (ticketAt_of_job there) ?_
    · rw [State.ticketAt, free]
      rfl
    · intro r notQ
      rw [State.ticketAt, rest r notQ, State.ticketAt]
  · intro r other number isJob
    rw [calls]
    by_cases isQ : r = q
    · rw [isQ, there] at isJob
      cases isJob
      simp
    · rw [rest r isQ] at isJob
      have inside := booked.lt_length isJob
      rw [List.getElem?_append_left inside]
      exact booked.target r other number isJob
  · intro other r isAt
    rw [started, ended]
    by_cases same : other = s.history.calls.length
    · subst same
      rw [Function.update_self] at isAt
      cases isAt
      have before := booked.later _ le_rfl
      rw [notPass]
      exact ⟨before.2, before.1⟩
    · rw [Function.update_of_ne same] at isAt
      have there := (booked.located _ _).mpr isAt
      obtain ⟨⟨target, number⟩, isJob, rfl⟩ := Option.map_eq_some_iff.mp there
      rw [calls, List.getElem?_append_left (booked.lt_length isJob)]
      exact booked.running _ r isAt
  · intro other inside isAt
    rw [started, ended, calls]
    rw [calls, List.length_append, List.length_singleton] at inside
    by_cases same : other = s.history.calls.length
    · simp [same] at isAt
    · rw [Function.update_of_ne same] at isAt
      have before : other < s.history.calls.length := by omega
      rw [List.getElem?_append_left before]
      exact booked.finished other before isAt
  · intro other outside
    rw [calls, List.length_append, List.length_singleton] at outside
    rw [started, ended]
    exact booked.later other (by omega)
  · have before := booked.inFlight
    have opens : next.open_ = insert s.history.calls.length s.open_ := by
      rw [State.open_, State.open_, calls, ended, List.length_append, List.length_singleton,
        Finset.range_add_one, Finset.filter_insert, if_pos (booked.later _ le_rfl).2]
    rw [opens, Finset.card_insert_of_notMem (by simp [State.open_]), inFlight, waiters]
    push_cast
    linarith

theorem decrement (booked : Booked s ledger) {p : Place Thread}
    (here : s.job p = some (step, ticket)) (isPass : p.isPass = true) (left : next.job p = none)
    (rest : ∀ r, r ≠ p → next.job r = s.job r)
    (calls : next.history.calls = s.history.calls)
    (started : next.history.started = s.history.started)
    (ended : next.history.ended =
      Function.update s.history.ended ticket (s.history.ended ticket + 1))
    (inFlight : next.userStepsInFlight = s.userStepsInFlight - 1)
    (waiters : next.waiters = s.waiters) : Booked next (Function.update ledger ticket none) := by
  have found := ticketAt_of_job here
  have isPlace := (booked.located _ _).mp found
  obtain ⟨isOpen, isStarted⟩ := booked.running ticket p isPlace
  rw [isPass, if_pos rfl] at isStarted
  refine ⟨?_, ?_, ?_, ?_, ?_, ?_⟩
  · refine booked.located.leave found ?_ ?_
    · rw [State.ticketAt, left]
      rfl
    · intro r notP
      rw [State.ticketAt, rest r notP, State.ticketAt]
  · intro r other number isJob
    rw [calls]
    by_cases isP : r = p
    · rw [isP, left] at isJob
      cases isJob
    · rw [rest r isP] at isJob
      exact booked.target r other number isJob
  · intro other r isAt
    by_cases same : other = ticket
    · simp [same] at isAt
    · rw [Function.update_of_ne same] at isAt
      rw [calls, started, ended, Function.update_of_ne same]
      exact booked.running other r isAt
  · intro other inside isAt
    rw [calls] at inside
    rw [calls, started, ended]
    by_cases same : other = ticket
    · subst same
      rw [Function.update_self, isOpen]
      exact ⟨rfl, isStarted⟩
    · rw [Function.update_of_ne same] at isAt ⊢
      exact booked.finished other inside isAt
  · intro other outside
    rw [calls] at outside
    have notThis : other ≠ ticket := by
      rintro rfl
      exact absurd (booked.lt_length here) (by omega)
    rw [started, ended, Function.update_of_ne notThis]
    exact booked.later other outside
  · have before := booked.inFlight
    have inOpen : ticket ∈ s.open_ := by
      rw [State.open_, Finset.mem_filter, Finset.mem_range]
      exact ⟨booked.lt_length here, isOpen⟩
    have opens : next.open_ = s.open_.erase ticket := by
      ext other
      rw [Finset.mem_erase, State.open_, State.open_, Finset.mem_filter, Finset.mem_filter,
        calls, ended]
      by_cases same : other = ticket
      · simp [same]
      · simp [same]
    have positive : 0 < s.open_.card := Finset.card_pos.mpr ⟨ticket, inOpen⟩
    rw [opens, Finset.card_erase_of_mem inOpen, inFlight, waiters, before]
    omega

end Booked

end Steps

end CnC.Execute
