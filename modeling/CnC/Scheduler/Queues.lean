import Mathlib.Data.List.Perm.Basic
import Mathlib.Algebra.BigOperators.Fin
import Mathlib.Tactic
import CnC.Library.Transition

/-!
# Concurrent queues

A thread of the pool looks into all queues before it sleeps in the global queue.  `do_schedule`
wakes a thread up only if it finds one asleep, so a step can be left in its queue by threads which
have passed it.  This does not happen to the steps which are scheduled by workers.
-/

namespace CnC.Scheduler.Queues

open Transition

variable {n : Nat} {Step : Type}

inductive Thread (n : Nat) where
  | pool (tid : Fin n)
  | other (id : Nat)
  deriving DecidableEq

/-- `wakeUpStep` and `NULL`. -/
inductive Token where
  | wakeUp
  | null
  deriving DecidableEq

/-- A call of `run_steps`.  Those of `wait` are given the number of steps in flight. -/
structure Call (n : Nat) where
  tid : Fin n
  num : Bool
  deriving DecidableEq

/-- What a thread is about to do.  It is `running` while it executes a step or is not in
`run_steps`, and `pushed` after the push of `do_schedule`.  In `pop_next` it looks into the queues
which are left, the root thread tries the global queue, and a worker is asleep in the pop which it
has begun.  It has `tested` a step in the condition of `run_steps`, and is `waiting` in that of
`wait`. -/
inductive Pc (n : Nat) where
  | running
  | pushed
  | looking (queues : List (Fin n))
  | trying
  | asleep (ticket : Nat)
  | tested
  | waiting
  | ended
  deriving DecidableEq

structure ThreadState (n : Nat) where
  calls : List (Call n)
  pc : Pc n
  localQueue : Option (Fin n)
  deriving DecidableEq

structure Entry (n : Nat) (Step : Type) where
  step : Step
  scheduledBy : Thread n
  deriving DecidableEq

structure Discipline (Step : Type) where
  first : List Step → Nat
  first_lt : ∀ steps, steps ≠ [] → first steps < steps.length

/-- `concurrent_bounded_queue`. -/
def fifo (Step : Type) : Discipline Step where
  first _ := 0
  first_lt _ nonempty := List.length_pos_iff.mpr nonempty

/-- `concurrent_priority_queue`, ordered by `less< schedulable * >`. -/
def prioritized (priority : Step → Int) : Discipline Step where
  first steps := (steps.map priority).idxOf ((steps.map priority).max?.getD 0)
  first_lt steps nonempty := by
    obtain ⟨top, isTop⟩ : ∃ top, (steps.map priority).max? = some top :=
      Option.isSome_iff_exists.mp (by simpa using nonempty)
    have inside := List.idxOf_lt_length_iff.mpr (List.max?_mem isTop)
    rw [List.length_map] at inside
    rwa [isTop, Option.getD_some]

/-- The parameters of a scheduler.  On the root process, thread 0 is not a worker: it calls
`wait`. -/
structure Config (Step : Type) where
  steal : Bool
  useAffinity : Bool
  amroot : Bool
  discipline : Discipline Step
  affinity : Step → Int

/-- `m_queues`, `m_gQueue` with the tokens which have been pushed and the number of pops which have
begun, and the threads.  No operation reads `scheduled` and `popped`. -/
structure State (n : Nat) (Step : Type) where
  queues : Fin n → List (Entry n Step)
  tokens : List Token
  pops : Nat
  threads : Thread n → ThreadState n
  scheduled : List (Entry n Step)
  popped : List (Entry n Step)

/-- `m_gQueue->size()`. -/
def State.size (s : State n Step) : Int :=
  s.tokens.length - s.pops

/-- A thread schedules a step, calls `wait`, is done with the step which it executes, or goes on
while more than one step is in flight or not.  `~tcq_init` is called. -/
inductive Action (n : Nat) (Step : Type) where
  | schedule (thread : Thread n) (step : Step)
  | wait (thread : Thread n)
  | finish (thread : Thread n)
  | run (thread : Thread n) (more : Bool)
  | quit

section Operations

variable [NeZero n] (config : Config Step)

def affinityHere : Int := -1

/-- The queues in the order of `pop_next`. -/
def order (steal : Bool) (tid : Fin n) : List (Fin n) :=
  if steal then
    let s := (tid.val + 1) % n
    tid :: (List.range n).map fun i => ⟨(s + i) % n, Nat.mod_lt _ tid.pos⟩
  else [0]

/-- The queue of `do_schedule`. -/
def queueOf (localQueue : Option (Fin n)) (step : Step) : Fin n :=
  if config.steal then
    let aff := if config.useAffinity then config.affinity step else affinityHere
    if aff = affinityHere ∨ aff ≥ n then localQueue.getD 0
    else ⟨aff.toNat % n, Nat.mod_lt _ (NeZero.pos n)⟩
  else 0

/-- `try_pop` of a queue. -/
def tryPop (discipline : Discipline Step) (queue : List (Entry n Step)) :
    Option (Entry n Step × List (Entry n Step)) :=
  let i := discipline.first (queue.map Entry.step)
  queue[i]?.map fun entry => (entry, queue.eraseIdx i)

def State.setThread (s : State n Step) (thread : Thread n) (state : ThreadState n) :
    State n Step :=
  { s with threads := Function.update s.threads thread state }

/-- One operation of a thread in `do_schedule`, `run_steps` or `wait`. -/
def advance (s : State n Step) (thread : Thread n) (more : Bool) : Option (State n Step) :=
  let state := s.threads thread
  let goto pc := s.setThread thread { state with pc }
  match state.pc, state.calls with
  | .pushed, _ =>
      let s := goto .running
      some (if s.size < 0 then { s with tokens := s.tokens ++ [.wakeUp] } else s)
  | .looking (q :: rest), _ =>
      match tryPop config.discipline (s.queues q) with
      | some (entry, queue) =>
          let s := goto .running
          some { s with queues := Function.update s.queues q queue, popped := s.popped ++ [entry] }
      | none => some (goto (.looking rest))
  | .looking [], call :: rest =>
      if ¬ call.num then
        let s := goto (.asleep s.pops)
        some { s with pops := s.pops + 1 }
      else if config.steal then
        some (s.setThread thread ⟨call :: rest, .waiting, none⟩)
      else some (goto .trying)
  | .trying, calls =>
      match s.tokens[s.pops]? with
      | none => some (s.setThread thread ⟨calls, .waiting, none⟩)
      | some .wakeUp =>
          let s := goto .tested
          some { s with pops := s.pops + 1 }
      | some .null =>
          let s := s.setThread thread ⟨calls, .waiting, none⟩
          some { s with pops := s.pops + 1 }
  | .asleep ticket, _ =>
      match s.tokens[ticket]? with
      | none => none
      | some .wakeUp => some (goto .tested)
      | some .null => some (s.setThread thread ⟨[], .ended, none⟩)
  | .tested, call :: rest =>
      some (if ¬ call.num ∨ more then goto (.looking (order config.steal call.tid))
        else s.setThread thread ⟨call :: rest, .waiting, none⟩)
  | .waiting, call :: rest =>
      some (if more then
          s.setThread thread ⟨call :: rest, .looking (order config.steal call.tid),
            if config.steal then some call.tid else state.localQueue⟩
        else s.setThread thread ⟨rest, .running, state.localQueue⟩)
  | _, _ => none

def step (s : State n Step) : Action n Step → Option (State n Step)
  | .schedule thread step =>
      let state := s.threads thread
      match state.pc with
      | .running =>
          let q := queueOf config state.localQueue step
          let entry : Entry n Step := ⟨step, thread⟩
          let s := s.setThread thread { state with pc := .pushed }
          some { s with
            queues := Function.update s.queues q (s.queues q ++ [entry])
            scheduled := s.scheduled ++ [entry] }
      | _ => none
  | .wait thread =>
      let state := s.threads thread
      match state.pc with
      | .running =>
          some (s.setThread thread
            { state with calls := ⟨0, true⟩ :: state.calls, pc := .waiting })
      | _ => none
  | .finish thread =>
      let state := s.threads thread
      match state.pc, state.calls with
      | .running, _ :: _ => some (s.setThread thread { state with pc := .tested })
      | _, _ => none
  | .run thread more => advance config s thread more
  | .quit => some { s with tokens := s.tokens ++ List.replicate n .null }

/-- The threads which the constructor starts. -/
def isWorker (amroot : Bool) : Thread n → Bool
  | .pool tid => !(amroot && tid = 0)
  | .other _ => false

def startThread (config : Config Step) (thread : Thread n) : ThreadState n :=
  match thread with
  | .pool tid =>
      if isWorker config.amroot thread then
        ⟨[⟨tid, false⟩], .looking (order config.steal tid),
          if config.steal then some tid else none⟩
      else ⟨[], .running, none⟩
  | .other _ => ⟨[], .running, none⟩

def start (n : Nat) [NeZero n] (config : Config Step) : State n Step where
  queues _ := []
  tokens := []
  pops := 0
  threads := startThread config
  scheduled := []
  popped := []

def system (n : Nat) [NeZero n] (config : Config Step) : System (State n Step) (Action n Step) where
  Initial s := s = start n config
  step := step config

end Operations

theorem tryPop_eq_some {discipline : Discipline Step} {queue rest : List (Entry n Step)}
    {entry : Entry n Step} (found : tryPop discipline queue = some (entry, rest)) :
    queue.Perm (entry :: rest) := by
  obtain ⟨head, isHead, same⟩ := Option.map_eq_some_iff.mp found
  obtain ⟨inside, rfl⟩ := List.getElem?_eq_some_iff.mp isHead
  cases same
  exact (List.getElem_cons_eraseIdx_perm inside).symm

theorem tryPop_eq_none {discipline : Discipline Step} {queue : List (Entry n Step)}
    (missing : tryPop discipline queue = none) : queue = [] := by
  by_contra nonempty
  have inside := discipline.first_lt (queue.map Entry.step) (by simpa using nonempty)
  rw [List.length_map] at inside
  rw [tryPop, Option.map_eq_none_iff, List.getElem?_eq_none_iff] at missing
  omega

/-- The thread will look into the queue before it sleeps, or it is going to be woken up. -/
def Pc.Attends (tokens : List Token) (q : Fin n) : Pc n → Prop
  | .looking queues => q ∈ queues
  | .asleep ticket => tokens[ticket]? = some .wakeUp
  | .ended => False
  | _ => True

theorem Pc.Attends.mono {tokens more : List Token} {q : Fin n} {pc : Pc n}
    (attends : pc.Attends tokens q) (grows : tokens <+: more) : pc.Attends more q := by
  cases pc with
  | asleep ticket =>
      obtain ⟨rest, rfl⟩ := grows
      obtain ⟨inside, isToken⟩ := List.getElem?_eq_some_iff.mp attends
      exact List.getElem?_eq_some_iff.mpr
        ⟨by rw [List.length_append]; omega, by rwa [List.getElem_append_left inside]⟩
  | _ => exact attends

section Steps

variable [NeZero n] {config : Config Step} {s next : State n Step}

/-- The queues which the scheduler uses. -/
def Used (config : Config Step) (q : Fin n) : Prop :=
  config.steal = true ∨ q = 0

theorem used_queueOf (config : Config Step) (localQueue : Option (Fin n)) (step : Step) :
    Used config (queueOf config localQueue step) := by
  by_cases steals : config.steal = true
  · exact .inl steals
  · exact .inr (if_neg steals)

theorem mem_order {q : Fin n} (used : Used config q) (tid : Fin n) :
    q ∈ order config.steal tid := by
  rcases used with steals | rfl
  · have less := q.isLt
    have first := Nat.mod_lt (tid.val + 1) tid.pos
    rw [steals]
    refine List.mem_cons_of_mem _ (List.mem_map.mpr ⟨(q.val + n - (tid.val + 1) % n) % n,
      List.mem_range.mpr (Nat.mod_lt _ tid.pos), Fin.ext ?_⟩)
    change ((tid.val + 1) % n + (q.val + n - (tid.val + 1) % n) % n) % n = q.val
    rw [Nat.add_mod_mod,
      show (tid.val + 1) % n + (q.val + n - (tid.val + 1) % n) = q.val + n by omega,
      Nat.add_mod_right, Nat.mod_eq_of_lt less]
  · cases steals : config.steal with
    | false => exact List.mem_singleton_self 0
    | true =>
        have isZero : (0 : Fin n) ∈ order true tid := by
          have first := Nat.mod_lt (tid.val + 1) tid.pos
          refine List.mem_cons_of_mem _ (List.mem_map.mpr ⟨(n - (tid.val + 1) % n) % n,
            List.mem_range.mpr (Nat.mod_lt _ tid.pos), Fin.ext ?_⟩)
          change ((tid.val + 1) % n + (n - (tid.val + 1) % n) % n) % n = 0 % n
          rw [Nat.add_mod_mod, show (tid.val + 1) % n + (n - (tid.val + 1) % n) = n by omega,
            Nat.mod_self, Nat.zero_mod]
        exact isZero

/-- What one operation can do: a thread goes on and still attends to the queues which are not
empty, it pops a step, it pushes one, or the threads are told to end. -/
inductive Move (config : Config Step) (s : State n Step) : State n Step → Prop
  | turn {thread state tokens pops} : s.tokens <+: tokens →
      (∀ q, Used config q → s.queues q ≠ [] → (s.threads thread).pc.Attends s.tokens q →
        state.pc.Attends tokens q) →
      Move config s { s.setThread thread state with tokens, pops }
  | pop {thread q entry queue} : (s.queues q).Perm (entry :: queue) →
      Move config s { s.setThread thread { s.threads thread with pc := .running } with
        queues := Function.update s.queues q queue
        popped := s.popped ++ [entry] }
  | push {thread q step} : Used config q →
      Move config s { s.setThread thread { s.threads thread with pc := .pushed } with
        queues := Function.update s.queues q (s.queues q ++ [⟨step, thread⟩])
        scheduled := s.scheduled ++ [⟨step, thread⟩] }
  | quit : Move config s { s with tokens := s.tokens ++ List.replicate n .null }

theorem Move.goto {thread : Thread n} {state : ThreadState n}
    (attends : ∀ q, Used config q → s.queues q ≠ [] →
      (s.threads thread).pc.Attends s.tokens q → state.pc.Attends s.tokens q) :
    Move config s (s.setThread thread state) :=
  .turn (List.prefix_refl _) attends

theorem move_of_advance {thread : Thread n} {more : Bool}
    (moved : advance config s thread more = some next) : Move config s next := by
  cases isPc : (s.threads thread).pc with
  | running => simp [advance, isPc] at moved
  | ended => simp [advance, isPc] at moved
  | pushed =>
      simp only [advance, isPc, Option.some.injEq] at moved
      subst moved
      split
      · exact .turn (List.prefix_append ..) fun _ _ _ _ => trivial
      · exact .goto fun _ _ _ _ => trivial
  | looking queues =>
      cases queues with
      | cons q rest =>
          simp only [advance, isPc] at moved
          split at moved
          · rename_i found
            cases moved
            exact .pop (tryPop_eq_some found)
          · rename_i missing
            cases moved
            refine .goto fun other used nonempty attends => ?_
            rw [isPc] at attends
            refine (List.mem_cons.mp attends).resolve_left ?_
            rintro rfl
            exact nonempty (tryPop_eq_none missing)
      | nil =>
          have attends {pc : Pc n} (q : Fin n) : Used config q → s.queues q ≠ [] →
              (s.threads thread).pc.Attends s.tokens q → pc.Attends s.tokens q := by
            intro _ _ before
            rw [isPc] at before
            exact absurd before List.not_mem_nil
          simp only [advance, isPc] at moved
          cases isCall : (s.threads thread).calls with
          | nil => simp [isCall] at moved
          | cons call rest =>
              simp only [isCall] at moved
              split at moved
              · cases moved
                exact .turn (List.prefix_refl _) attends
              · split at moved
                · cases moved
                  exact .goto attends
                · cases moved
                  exact .goto attends
  | trying =>
      simp only [advance, isPc] at moved
      split at moved
      · cases moved
        exact .goto fun _ _ _ _ => trivial
      · cases moved
        exact .turn (List.prefix_refl _) fun _ _ _ _ => trivial
      · cases moved
        exact .turn (List.prefix_refl _) fun _ _ _ _ => trivial
  | asleep ticket =>
      simp only [advance, isPc] at moved
      split at moved
      · cases moved
      · cases moved
        exact .goto fun _ _ _ _ => trivial
      · rename_i isNull
        cases moved
        refine .goto fun q _ _ attends => ?_
        rw [isPc] at attends
        have isWakeUp : s.tokens[ticket]? = some .wakeUp := attends
        rw [isNull] at isWakeUp
        cases isWakeUp
  | tested =>
      simp only [advance, isPc] at moved
      cases isCall : (s.threads thread).calls with
      | nil => simp [isCall] at moved
      | cons call rest =>
          simp only [isCall, Option.some.injEq] at moved
          subst moved
          split
          · exact .goto fun q used _ _ => mem_order used _
          · exact .goto fun _ _ _ _ => trivial
  | waiting =>
      simp only [advance, isPc] at moved
      cases isCall : (s.threads thread).calls with
      | nil => simp [isCall] at moved
      | cons call rest =>
          simp only [isCall, Option.some.injEq] at moved
          subst moved
          split
          · exact .goto fun q used _ _ => mem_order used _
          · exact .goto fun _ _ _ _ => trivial

theorem move_of_step {action : Action n Step} (stepped : step config s action = some next) :
    Move config s next := by
  cases action with
  | schedule thread job =>
      simp only [step] at stepped
      split at stepped
      · cases stepped
        exact .push (used_queueOf ..)
      · cases stepped
  | wait thread =>
      simp only [step] at stepped
      split at stepped
      · cases stepped
        exact .goto fun _ _ _ _ => trivial
      · cases stepped
  | finish thread =>
      simp only [step] at stepped
      split at stepped
      · cases stepped
        exact .goto fun _ _ _ _ => trivial
      · cases stepped
  | run thread more => exact move_of_advance stepped
  | quit =>
      cases stepped
      exact .quit

omit [NeZero n] in
theorem sum_update_queue (queues : Fin n → List (Entry n Step)) (q : Fin n)
    (queue : List (Entry n Step)) :
    ∑ i, (Function.update queues q queue i : Multiset (Entry n Step)) + queues q =
      ∑ i, (queues i : Multiset (Entry n Step)) + queue := by
  have isUpdate : (fun i => (Function.update queues q queue i : Multiset (Entry n Step))) =
      Function.update (fun i => (queues i : Multiset (Entry n Step))) q queue :=
    funext fun i => Function.apply_update (fun _ => Multiset.ofList) queues q queue i
  rw [isUpdate, Finset.sum_update_of_mem (Finset.mem_univ q),
    ← Finset.sum_sdiff (Finset.subset_univ {q}), Finset.sum_singleton]
  abel

def Conserved (s : State n Step) : Prop :=
  (s.scheduled : Multiset (Entry n Step)) = s.popped + ∑ q, (s.queues q : Multiset (Entry n Step))

theorem Conserved.move (conserved : Conserved s) (moved : Move config s next) :
    Conserved next := by
  cases moved with
  | turn => exact conserved
  | @pop thread q entry queue isPerm =>
      have moves := sum_update_queue s.queues q queue
      rw [Multiset.coe_eq_coe.mpr isPerm, ← Multiset.cons_coe, ← Multiset.singleton_add,
        ← add_assoc, add_left_inj] at moves
      change (s.scheduled : Multiset (Entry n Step)) = ↑(s.popped ++ [entry]) +
        ∑ i, (Function.update s.queues q queue i : Multiset (Entry n Step))
      rw [conserved, ← moves, ← Multiset.coe_add, Multiset.coe_singleton]
      abel
  | @push thread q step used =>
      have moves := sum_update_queue s.queues q (s.queues q ++ [⟨step, thread⟩])
      rw [← Multiset.coe_add, add_comm (s.queues q : Multiset (Entry n Step)), ← add_assoc,
        add_left_inj] at moves
      change (Multiset.ofList (s.scheduled ++ [⟨step, thread⟩])) = Multiset.ofList s.popped +
        ∑ i, (Function.update s.queues q (s.queues q ++ [⟨step, thread⟩]) i :
          Multiset (Entry n Step))
      rw [moves, ← Multiset.coe_add, conserved, add_assoc]
  | quit => exact conserved

structure Attended (config : Config Step) (s : State n Step) : Prop where
  used : ∀ q, s.queues q ≠ [] → Used config q
  attended : ∀ q, ∀ entry ∈ s.queues q, isWorker config.amroot entry.scheduledBy = true →
    ∃ thread, isWorker config.amroot thread = true ∧ (s.threads thread).pc.Attends s.tokens q

theorem Attended.move (attended : Attended config s) (moved : Move config s next) :
    Attended config next := by
  cases moved with
  | @turn thread state tokens pops grows attends =>
      refine ⟨attended.used, fun q entry queued byWorker => ?_⟩
      have nonempty : s.queues q ≠ [] := List.ne_nil_of_mem queued
      obtain ⟨worker, isWorker, before⟩ := attended.attended q entry queued byWorker
      refine ⟨worker, isWorker, ?_⟩
      change (Function.update s.threads thread state worker).pc.Attends tokens q
      by_cases same : worker = thread
      · subst same
        rw [Function.update_self]
        exact attends q (attended.used q nonempty) nonempty before
      · rw [Function.update_of_ne same]
        exact before.mono grows
  | @pop thread q entry queue isPerm =>
      have still {other : Fin n} {entry : Entry n Step}
          (queued : entry ∈ Function.update s.queues q queue other) : entry ∈ s.queues other := by
        by_cases same : other = q
        · subst same
          rw [Function.update_self] at queued
          exact isPerm.mem_iff.mpr (List.mem_cons_of_mem _ queued)
        · rwa [Function.update_of_ne same] at queued
      refine ⟨fun other nonempty => ?_, fun other entry queued byWorker => ?_⟩
      · obtain ⟨entry, queued⟩ := List.exists_mem_of_ne_nil _ nonempty
        exact attended.used other (List.ne_nil_of_mem (still queued))
      · obtain ⟨worker, isWorker, before⟩ := attended.attended other entry (still queued) byWorker
        refine ⟨worker, isWorker, ?_⟩
        change (Function.update s.threads thread _ worker).pc.Attends s.tokens other
        by_cases same : worker = thread
        · rw [same, Function.update_self]
          trivial
        · rwa [Function.update_of_ne same]
  | @push thread q step used =>
      refine ⟨fun other nonempty => ?_, fun other entry queued byWorker => ?_⟩
      · by_cases same : other = q
        · exact same ▸ used
        · change Function.update s.queues q _ other ≠ [] at nonempty
          rw [Function.update_of_ne same] at nonempty
          exact attended.used other nonempty
      · -- the thread which has pushed attends to all queues
        by_cases isPusher : isWorker config.amroot thread = true
        · refine ⟨thread, isPusher, ?_⟩
          change (Function.update s.threads thread _ thread).pc.Attends s.tokens other
          rw [Function.update_self]
          trivial
        · have old : entry ∈ s.queues other := by
            change entry ∈ Function.update s.queues q _ other at queued
            by_cases same : other = q
            · subst same
              rw [Function.update_self, List.mem_append, List.mem_singleton] at queued
              refine queued.resolve_right fun isNew => isPusher ?_
              rwa [isNew] at byWorker
            · rwa [Function.update_of_ne same] at queued
          obtain ⟨worker, isWorker', before⟩ := attended.attended other entry old byWorker
          refine ⟨worker, isWorker', ?_⟩
          change (Function.update s.threads thread _ worker).pc.Attends s.tokens other
          have notPusher : worker ≠ thread := by
            rintro rfl
            exact isPusher isWorker'
          rwa [Function.update_of_ne notPusher]
  | quit =>
      refine ⟨attended.used, fun q entry queued byWorker => ?_⟩
      obtain ⟨worker, isWorker, before⟩ := attended.attended q entry queued byWorker
      exact ⟨worker, isWorker, before.mono (List.prefix_append ..)⟩

def State.Sleeps (s : State n Step) (thread : Thread n) : Prop :=
  ∃ ticket, (s.threads thread).pc = .asleep ticket ∧ s.tokens.length ≤ ticket

omit [NeZero n] in
theorem State.Sleeps.not_attends {thread : Thread n} (sleeps : s.Sleeps thread) (q : Fin n) :
    ¬ (s.threads thread).pc.Attends s.tokens q := by
  obtain ⟨ticket, isPc, beyond⟩ := sleeps
  rw [isPc]
  intro isToken
  have isToken : s.tokens[ticket]? = some .wakeUp := isToken
  rw [List.getElem?_eq_none beyond] at isToken
  cases isToken

theorem attended_of_reachable (reached : Reachable (system n config) s) :
    Conserved s ∧ Attended config s := by
  refine reached.invariant (fun s => Conserved s ∧ Attended config s) ?_ ?_
  · rintro state rfl
    refine ⟨by simp [Conserved, start], fun q nonempty => absurd rfl nonempty,
      fun q entry queued => ?_⟩
    exact absurd queued List.not_mem_nil
  · rintro state action next - ⟨conserved, attended⟩ - stepped
    have moved := move_of_step stepped
    exact ⟨conserved.move moved, attended.move moved⟩

/-- Every step which is scheduled is popped once or still in a queue.  Some worker attends to those
which workers have scheduled, so all of these have been popped when all workers sleep. -/
theorem workers_leave_no_steps (reached : Reachable (system n config) s) :
    (s.scheduled : Multiset (Entry n Step)) =
        s.popped + ∑ q, (s.queues q : Multiset (Entry n Step)) ∧
      (∀ q, ∀ entry ∈ s.queues q, isWorker config.amroot entry.scheduledBy = true →
        ∃ thread, isWorker config.amroot thread = true ∧
          (s.threads thread).pc.Attends s.tokens q) ∧
      ((∀ thread, isWorker config.amroot thread = true → s.Sleeps thread) →
        (s.scheduled.filter fun entry => isWorker config.amroot entry.scheduledBy).Perm
          (s.popped.filter fun entry => isWorker config.amroot entry.scheduledBy)) := by
  obtain ⟨conserved, attended⟩ := attended_of_reachable reached
  refine ⟨conserved, attended.attended, fun asleep => ?_⟩
  have nothing : (∑ q, (s.queues q : Multiset (Entry n Step))).filter
      (fun entry => isWorker config.amroot entry.scheduledBy = true) = 0 := by
    refine Multiset.filter_eq_nil.mpr fun entry queued byWorker => ?_
    obtain ⟨q, -, inQueue⟩ := Multiset.mem_sum.mp queued
    obtain ⟨thread, isWorker, attends⟩ := attended.attended q entry inQueue byWorker
    exact (asleep thread isWorker).not_attends q attends
  have filtered := congrArg
    (Multiset.filter fun entry => isWorker config.amroot entry.scheduledBy = true) conserved
  rw [Multiset.filter_add, nothing, add_zero] at filtered
  simpa using filtered

end Steps

/-- The root thread schedules a step, and the worker executes it and the one which it schedules. -/
def stealAndSchedule : List (Action 2 Nat) :=
  [.schedule (.pool 0) 7, .run (.pool 0) true, .run (.pool 1) true, .run (.pool 1) true,
    .schedule (.pool 1) 8, .run (.pool 1) true, .finish (.pool 1), .run (.pool 1) true,
    .run (.pool 1) true, .finish (.pool 1), .run (.pool 1) true, .run (.pool 1) true,
    .run (.pool 1) true, .run (.pool 1) true, .run (.pool 1) true]

def fifoSteal (amroot : Bool) : Config Nat where
  steal := true
  useAffinity := false
  amroot := amroot
  discipline := fifo Nat
  affinity _ := affinityHere

theorem run_stealAndSchedule :
    ((system 2 (fifoSteal true)).run (fun _ _ => True) (start 2 (fifoSteal true))
      stealAndSchedule).any (fun s => decide ((s.threads (.pool 1)).pc = .asleep 0 ∧
        s.tokens.length ≤ 0 ∧ s.scheduled = [⟨7, .pool 0⟩, ⟨8, .pool 1⟩])) = true := by
  decide +kernel

theorem workers_leave_no_steps_stealAndSchedule :
    ∃ s, (system 2 (fifoSteal true)).run (fun _ _ => True) (start 2 (fifoSteal true))
        stealAndSchedule = some s ∧
      s.scheduled = [⟨7, .pool 0⟩, ⟨8, .pool 1⟩] ∧
      (s.scheduled.filter fun entry => isWorker true entry.scheduledBy).Perm
        (s.popped.filter fun entry => isWorker true entry.scheduledBy) := by
  obtain ⟨s, isRun, facts⟩ := (Option.any_eq_true ..).mp run_stealAndSchedule
  obtain ⟨isPc, isEmpty, scheduled⟩ := of_decide_eq_true facts
  have reached : Reachable (system 2 (fifoSteal true)) s := Reached.run (.initial rfl) _ isRun
  refine ⟨s, isRun, scheduled, (workers_leave_no_steps reached).2.2 fun thread worker => ?_⟩
  have isOne : thread = .pool 1 := by
    cases thread with
    | pool tid =>
        fin_cases tid
        · exact absurd worker (by decide)
        · rfl
    | other id => exact absurd worker Bool.false_ne_true
  exact ⟨0, isOne ▸ isPc, isEmpty⟩

/-- The receiver of messages schedules a step after the worker has looked into the queue and before
it sleeps. -/
def scheduleTooLate : List (Action 1 Nat) :=
  [.run (.pool 0) true, .run (.pool 0) true, .schedule (.other 0) 7, .run (.other 0) true,
    .run (.pool 0) true]

theorem run_scheduleTooLate :
    ((system 1 (fifoSteal false)).run (fun _ _ => True) (start 1 (fifoSteal false))
      scheduleTooLate).any (fun s => decide ((s.threads (.pool 0)).pc = .asleep 0 ∧
        s.tokens.length ≤ 0 ∧ s.queues 0 = [⟨7, .other 0⟩])) = true := by
  decide +kernel

/-- The step of another thread can be left in its queue while all workers sleep. -/
theorem left_scheduleTooLate :
    ∃ s, (system 1 (fifoSteal false)).run (fun _ _ => True) (start 1 (fifoSteal false))
        scheduleTooLate = some s ∧
      s.queues 0 = [⟨7, .other 0⟩] ∧ s.Sleeps (.pool 0) := by
  obtain ⟨s, isRun, facts⟩ := (Option.any_eq_true ..).mp run_scheduleTooLate
  obtain ⟨isPc, isEmpty, isQueue⟩ := of_decide_eq_true facts
  exact ⟨s, isRun, isQueue, 0, isPc, isEmpty⟩

end CnC.Scheduler.Queues
