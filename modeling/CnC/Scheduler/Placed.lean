import CnC.Scheduler.WaitAll

/-!
# The places of a schedulable

Over the runs of `wait_all` in which no two executions of a schedulable meet, every
schedulable is in one place: with a call of `prepare`, in a queue, with one pass of
`do_execute`, in suspend groups, in `m_pendingSteps` or in `m_seqSteps`, or deleted.
`Placed` tells for each place what its counter of suspends is, and every operation on a
schedulable has one lemma about it.
-/

namespace CnC.WaitAll

open CnC.Scheduler

universe u

variable {Step : Type u}

/-- What the scheduler knows about a schedulable beside its record: how often it is in
a suspend group, counted in `m_userStepsInFlight` and listed, whether the wait thread
has locked it in one of the lists, and whether it executes it. -/
structure View where
  memberships : Nat
  inFlight : Nat
  pending : Nat
  seq : Nat
  lockedPending : Bool
  lockedSeq : Bool
  running : Bool

/-- No one but the call of `prepare` knows the schedulable. -/
structure Fresh (v : View) (x : Instance Step) : Prop where
  inFlight : v.inFlight = 0
  inPending : x.inPending = false
  sequentialize : x.sequentialize = false
  status : x.sched.status = .unprepared

/-- The lists tell the same as the flags. -/
structure Listing (kind : Kind) (v : View) (x : Instance Step) : Prop where
  pending : v.pending = if x.inPending then 1 else 0
  inPending : x.inPending = true → kind.isRange = true ∧ x.sequentialize = false ∧
    (x.sched.status = .pending ∨ x.sched.status = .done)
  seq_le : v.seq ≤ 1
  seq : 0 < v.seq → x.sequentialize = true

/-- The schedulable is in no suspend group, and its counter is below the suspends which
belong to its place: `schedule` registered it as pending and `wait_all` executes it
without a guard. -/
structure Unguarded (loose : Bool) (memberships : Nat) (nSuspenders guards : Int) : Prop where
  loose : loose = true
  memberships : memberships = 0
  counter : nSuspenders < guards

/-- No put takes the last suspend, unless it is one of a sequentialized schedulable. -/
def Settled (loose : Bool) (v : View) (x : Instance Step) : Prop :=
  v.memberships + 1 ≤ x.sched.nSuspenders ∨
    loose = true ∧ (v.memberships = 0 ∨ x.sequentialize = true)

/-- No call holds the schedulable, and it is in no queue: it waits for items, is
pending, is pending and done, is listed for sequentialized execution, or is left over
from one. -/
inductive Resting (loose : Bool) (kind : Kind) (v : View) (x : Instance Step) : Prop
  | waits : x.sequentialize = false → x.sched.status ≠ .done → 0 < x.sched.nSuspenders →
      x.sched.nSuspenders = v.memberships + (if v.lockedPending then 1 else 0) →
      Resting loose kind v x
  | unguarded : x.sequentialize = false → x.sched.status ≠ .done →
      Unguarded loose v.memberships x.sched.nSuspenders
        (if v.lockedPending then 1 else 0) → Resting loose kind v x
  | done : x.sequentialize = false → x.sched.status = .done → x.inPending = true →
      Settled loose v x → Resting loose kind v x
  | listed : x.sequentialize = true → v.seq = 1 → x.sched.status ≠ .done →
      (loose = false → v.memberships + (if v.lockedSeq then 1 else 0) ≤ x.sched.nSuspenders) →
      Resting loose kind v x
  | leftOver : x.sequentialize = true → v.seq = 0 →
      (loose = false → v.memberships + 1 ≤ x.sched.nSuspenders) →
      (x.sched.status = .done → kind.isRange = true) → Resting loose kind v x

/-- The schedulable is in a queue or just taken from it. -/
structure Scheduled (loose : Bool) (v : View) (x : Instance Step) : Prop where
  inFlight : v.inFlight = 1
  sequentialize : x.sequentialize = false
  running : v.running = false
  unlocked : v.lockedPending = false
  status : x.sched.status ≠ .done
  counter : (x.sched.status = .fromPending ∧ x.inPending = false ∧
      (x.sched.nSuspenders = v.memberships + 1 ∨
        Unguarded loose v.memberships x.sched.nSuspenders 1)) ∨
    (x.sched.status ≠ .fromPending ∧ x.sched.nSuspenders = 0 ∧ v.memberships = 0)

/-- A pass of `do_execute` holds the schedulable: on a worker, or as a sequentialized
one on the wait thread, with `guards` suspends beside those of its suspend groups. -/
structure Executes (loose : Bool) (v : View) (x : Instance Step) (guards : Nat) : Prop where
  inFlight : v.inFlight = 1
  unlocked : v.lockedPending = false
  status : x.sched.status ≠ .fromPending
  counter : (x.sequentialize = false ∧ v.running = false ∧
      (x.sched.nSuspenders = v.memberships + guards ∨
        Unguarded loose v.memberships x.sched.nSuspenders guards)) ∨
    (x.sequentialize = true ∧ v.running = true ∧
      (loose = false → v.memberships + guards + 1 ≤ x.sched.nSuspenders))

/-- A worker has just registered the schedulable for sequentialized execution. -/
structure Registered (loose : Bool) (v : View) (x : Instance Step) : Prop where
  inFlight : v.inFlight = 1
  running : v.running = false
  unlocked : v.lockedPending = false ∧ v.lockedSeq = false
  sequentialize : x.sequentialize = true
  seq : v.seq = 1
  status : x.sched.status ≠ .fromPending ∧ x.sched.status ≠ .done
  counter : loose = false → x.sched.nSuspenders = v.memberships + 1

/-- The execution has succeeded. -/
structure Finished (loose : Bool) (v : View) (x : Instance Step) : Prop where
  settled : Settled loose v x
  seq : v.seq = 0
  status : x.sched.status = .done ∨ x.inPending = false

/-- What holds of a schedulable in the hands of a call. -/
def Held (loose : Bool) (kind : Kind) (v : View) (x : Instance Step) : Phase Step → Prop
  | .prepareBegin _ => Fresh v x ∧ x.sched.nSuspenders = 0 ∧ v.memberships = 0
  | .prescheduled _ extra =>
      Fresh v x ∧ kind = .step false true ∧
        x.sched.nSuspenders = v.memberships + 1 + (if extra then 1 else 0)
  | .preparing _ =>
      Fresh v x ∧ (kind.isRange = true → v.memberships = 0) ∧
        x.sched.nSuspenders = v.memberships + 1
  | .prepareEnd _ =>
      v.inFlight = 0 ∧ x.inPending = false ∧ x.sched.status = .prepared ∧
        (kind.isRange = true → v.memberships = 0) ∧
        (x.sequentialize = true → kind = .step false true ∧ v.seq = 1 ∧ v.lockedSeq = false) ∧
        x.sched.nSuspenders = v.memberships + 1
  | .executeBegin =>
      Scheduled loose v x ∨
        (Executes loose v x 0 ∧ x.sequentialize = true ∧ x.sched.status ≠ .done ∧ v.seq = 0)
  | .executing => Executes loose v x 1 ∧ x.sched.status ≠ .done ∧ v.seq = 0
  | .executeEnd result =>
      (Executes loose v x 1 ∧ (x.sequentialize = false → result = .unfinished) ∧
        (result ≠ .needsSequentialize → v.seq = 0) ∧
        (x.sched.status = .done →
          x.sequentialize = true ∧ kind.isRange = true ∧ v.seq = 0)) ∨
      (Registered loose v x ∧ result = .needsSequentialize)
  | .succeeded => v.inFlight = 1 ∧ Finished loose v x
  | .testing => v.inFlight = 0 ∧ Finished loose v x
  | .deleting => v.inFlight = 0 ∧ Finished loose v x ∧ x.inPending = false

inductive Activity (loose : Bool) (kind : Kind) (v : View) (x : Instance Step) : Prop
  | resting : x.queued = 0 → x.held = [] → v.inFlight = 0 → x.sched.status ≠ .fromPending →
      Resting loose kind v x → Activity loose kind v x
  | queued : x.queued = 1 → x.held = [] → Scheduled loose v x → Activity loose kind v x
  | held (phase : Phase Step) : x.queued = 0 → x.held = [phase] → Held loose kind v x phase →
      Activity loose kind v x

/-- A sequentialized step has scheduled the schedulable, which is in `m_pendingSteps` and
nowhere else until the wait thread schedules it, in the same pass and without a guard. -/
structure Postponed (loose : Bool) (v : View) (x : Instance Step) : Prop where
  alive : x.deleted = false
  sequentialize : x.sequentialize = false
  status : x.sched.status = .pending
  inPending : x.inPending = true
  queued : x.queued = 0
  held : x.held = []
  inFlight : v.inFlight = 0
  pending : v.pending = 1
  locked : v.lockedPending = true
  seq : v.seq = 0
  unguarded : Unguarded loose v.memberships x.sched.nSuspenders 1

/-- At most the pass of `do_execute` which has succeeded knows a deleted schedulable. -/
structure Gone (loose : Bool) (v : View) (x : Instance Step) : Prop where
  queued : x.queued = 0
  settled : Settled loose v x
  pending : v.pending = 0
  seq : v.seq = 0
  held : (x.held = [.succeeded] ∧ v.inFlight = 1) ∨
    ((x.held = [] ∨ x.held = [.testing] ∨ x.held = [.deleting]) ∧ v.inFlight = 0)

/-- Where a schedulable is.  `loose` tells whether sequentialized steps schedule others. -/
inductive Placed (loose : Bool) (kind : Kind) (v : View) : Option (Instance Step) → Prop
  | absent : v.memberships = 0 → v.inFlight = 0 → v.pending = 0 → v.seq = 0 →
      Placed loose kind v none
  | alive {x : Instance Step} : x.deleted = false → Listing kind v x → Activity loose kind v x →
      Placed loose kind v (some x)
  | postponed {x : Instance Step} : Postponed loose v x → Placed loose kind v (some x)
  | gone {x : Instance Step} : x.deleted = true → Gone loose v x → Placed loose kind v (some x)

/-- The thread in which a call of `prepare` holds the schedulable. -/
def Phase.preparesIn : Phase Step → Option (Option Step)
  | .prepareBegin thread | .prescheduled thread _ | .preparing thread | .prepareEnd thread =>
      some thread
  | _ => none

section Places

variable {loose : Bool} {k : Kind} {v : View} {x : Instance Step} {phase : Phase Step}
  {thread : Option Step}

theorem Placed.held_cases (placed : Placed loose k v (some x))
    (held : phase ∈ x.held) :
    x.queued = 0 ∧ x.held = [phase] ∧ ((x.deleted = true ∧ Gone loose v x) ∨
      (x.deleted = false ∧ Listing k v x ∧ Held loose k v x phase)) := by
  cases placed with
  | gone deleted gone =>
      refine ⟨gone.queued, ?_, .inl ⟨deleted, gone⟩⟩
      rcases gone.held with ⟨alone, -⟩ | ⟨alone | alone | alone, -⟩ <;> simp_all
  | postponed postponed => simp [postponed.held] at held
  | alive alive listing activity =>
      cases activity with
      | resting _ none => simp [none] at held
      | queued _ none => simp [none] at held
      | held _ notQueued alone is =>
          obtain rfl : phase = _ := by simpa [alone] using held
          exact ⟨notQueued, alone, .inr ⟨alive, listing, is⟩⟩

theorem Placed.of_held (placed : Placed loose k v (some x))
    (held : phase ∈ x.held) (uses : phase ≠ .succeeded ∧ phase ≠ .testing ∧ phase ≠ .deleting) :
    x.deleted = false ∧ Listing k v x ∧ x.queued = 0 ∧ x.held = [phase] ∧
    Held loose k v x phase := by
  obtain ⟨notQueued, alone, ⟨-, gone⟩ | ⟨alive, listing, is⟩⟩ := placed.held_cases held
  · rcases gone.held with ⟨instead, -⟩ | ⟨instead | instead | instead, -⟩ <;> simp_all
  · exact ⟨alive, listing, notQueued, alone, is⟩

theorem Placed.held_of_queued (placed : Placed loose k v (some x))
    (nonempty : 0 < x.queued) : x.held = [] ∧ x.queued = 1 ∧ Scheduled loose v x := by
  cases placed with
  | gone _ gone => exact absurd gone.queued (Nat.ne_of_gt nonempty)
  | postponed postponed => exact absurd postponed.queued (Nat.ne_of_gt nonempty)
  | alive alive listing activity =>
      cases activity with
      | resting notQueued => exact absurd notQueued (Nat.ne_of_gt nonempty)
      | held _ notQueued => exact absurd notQueued (Nat.ne_of_gt nonempty)
      | queued once none scheduled => exact ⟨none, once, scheduled⟩

theorem Placed.inFlight_le {record : Option (Instance Step)}
    (placed : Placed loose k v record) : v.inFlight ≤ 1 := by
  cases placed with
  | absent _ inFlight => omega
  | gone _ gone =>
      rcases gone.held with ⟨-, inFlight⟩ | ⟨-, inFlight⟩ <;> omega
  | postponed postponed =>
      have inFlight := postponed.inFlight
      omega
  | alive _ _ activity =>
      cases activity with
      | resting _ _ inFlight => omega
      | queued _ _ scheduled => exact Nat.le_of_eq scheduled.inFlight
      | held phase _ _ is =>
          cases phase with
          | executeBegin =>
              rcases is with scheduled | ⟨executes, -⟩
              · exact Nat.le_of_eq scheduled.inFlight
              · exact Nat.le_of_eq executes.inFlight
          | executing => exact Nat.le_of_eq is.1.inFlight
          | executeEnd =>
              rcases is with ⟨executes, -⟩ | ⟨registered, -⟩
              · exact Nat.le_of_eq executes.inFlight
              · exact Nat.le_of_eq registered.inFlight
          | prepareBegin | prescheduled | preparing =>
              have inFlight := is.1.inFlight
              omega
          | prepareEnd | succeeded | testing | deleting =>
              have inFlight := is.1
              omega

theorem Placed.lists_le {record : Option (Instance Step)}
    (placed : Placed loose k v record) : v.pending ≤ 1 ∧ v.seq ≤ 1 := by
  cases placed with
  | absent _ _ notPending notListed => omega
  | gone _ gone =>
      have notPending := gone.pending
      have notListed := gone.seq
      omega
  | postponed postponed =>
      have once := postponed.pending
      have notListed := postponed.seq
      omega
  | alive _ listing =>
      refine ⟨?_, listing.seq_le⟩
      rw [listing.pending]
      split <;> omega

theorem Listing.unlisted (listing : Listing k v x)
    (ordinary : x.sequentialize = false) : v.seq = 0 := by
  by_contra some
  rw [listing.seq (Nat.pos_of_ne_zero some)] at ordinary
  cases ordinary

theorem Listing.isPending (listing : Listing k v x)
    (listed : 0 < v.pending) : x.inPending = true := by
  by_contra notPending
  have notListed := listing.pending
  rw [if_neg notPending] at notListed
  omega

theorem Listing.congr {k : Kind} {v w : View} {y : Instance Step} (listing : Listing k v x)
    (pending : w.pending = v.pending) (seq : w.seq = v.seq) (inPending : y.inPending = x.inPending)
    (sequentialize : y.sequentialize = x.sequentialize) (status : y.sched.status = x.sched.status) :
    Listing k w y := by
  constructor
  · rw [pending, inPending, listing.pending]
  · rw [inPending, sequentialize, status]
    exact listing.inPending
  · rw [seq]
    exact listing.seq_le
  · rw [seq, sequentialize]
    exact listing.seq

theorem Executes.guarded (executes : Executes false v x 1) :
    (v.memberships : Int) + 1 ≤ x.sched.nSuspenders := by
  rcases executes.counter with ⟨-, -, counter | unguarded⟩ | ⟨-, -, counter⟩
  · omega
  · cases unguarded.loose
  · have guarded := counter rfl
    omega

theorem Executes.settled (executes : Executes loose v x 1) : Settled loose v x := by
  rcases executes.counter with ⟨-, -, counter | unguarded⟩ | ⟨isSeq, -, counter⟩
  · exact .inl (by omega)
  · exact .inr ⟨unguarded.loose, .inl unguarded.memberships⟩
  · cases loose with
    | false => exact .inl (by have guarded := counter rfl; omega)
    | true => exact .inr ⟨rfl, .inr isSeq⟩

theorem Gone.inFlight_eq (gone : Gone loose v x) (alone : x.held = [phase])
    (decremented : phase ≠ .succeeded) : v.inFlight = 0 := by
  rcases gone.held with ⟨instead, -⟩ | ⟨-, inFlight⟩
  · rw [alone] at instead
    exact absurd (List.cons.inj instead).1 decremented
  · exact inFlight

theorem unsuspend_last : x.sched.unsuspend.2 = true ↔ x.sched.nSuspenders = 1 := by
  simp [Schedulable.unsuspend]

theorem Placed.pop (placed : Placed loose k v (some x)) (nonempty : 0 < x.queued) :
    Placed loose k v (some { x with queued := x.queued - 1, held := .executeBegin :: x.held }) := by
  cases placed with
  | gone _ gone => exact absurd gone.queued (Nat.ne_of_gt nonempty)
  | postponed postponed => exact absurd postponed.queued (Nat.ne_of_gt nonempty)
  | alive alive listing activity =>
      cases activity with
      | resting notQueued => exact absurd notQueued (Nat.ne_of_gt nonempty)
      | held _ notQueued => exact absurd notQueued (Nat.ne_of_gt nonempty)
      | queued once none scheduled =>
          have counter := scheduled.counter
          refine .alive alive { listing with }
            (.held .executeBegin ?_ ?_ (.inl { scheduled with counter := ?_ }))
          · simp [once]
          · simp [none]
          · grind [Unguarded]

theorem Placed.suspend (placed : Placed loose k v (some x))
    (held : phase ∈ x.held) (suspends : phase = .executing ∧ 0 < x.sched.nSuspenders ∨
      (∃ thread extra, phase = .prescheduled thread extra) ∨
      ∃ thread, phase = .preparing thread ∧ k.isRange = false) :
    Placed loose k { v with memberships := v.memberships + 1 } (some x.suspend) := by
  obtain ⟨alive, listing, notQueued, alone, is⟩ := placed.of_held held (by grind)
  refine .alive alive (listing.congr rfl rfl rfl rfl rfl) (.held phase notQueued alone ?_)
  rcases suspends with ⟨rfl, guarded⟩ | ⟨thread, extra, rfl⟩ | ⟨thread, rfl, plain⟩
  · obtain ⟨⟨inFlight, unlocked, status, counter⟩, notDone, notListed⟩ := is
    refine ⟨⟨inFlight, unlocked, status, ?_⟩, notDone, notListed⟩
    grind [Unguarded, Schedulable.suspend]
  · obtain ⟨fresh, isPrescheduled, counter⟩ := is
    refine ⟨{ fresh with }, isPrescheduled, ?_⟩
    grind [Schedulable.suspend]
  · obtain ⟨fresh, -, counter⟩ := is
    refine ⟨{ fresh with }, ?_, ?_⟩ <;> grind [Schedulable.suspend]

/-- A put resumes the schedulable from one suspend group, and others remain or a call
guards it. -/
theorem Placed.unsuspend (placed : Placed loose k v (some x))
    (member : 0 < v.memberships) (more : x.sched.nSuspenders ≠ 1) :
    Placed loose k { v with memberships := v.memberships - 1 } (some x.unsuspend) := by
  have notUnguarded : ∀ guards, ¬ Unguarded loose v.memberships x.sched.nSuspenders guards :=
    fun guards unguarded =>
    Nat.ne_of_gt member unguarded.memberships
  have settled : Settled loose v x →
      Settled loose { v with memberships := v.memberships - 1 } x.unsuspend := by
    grind [Settled, Schedulable.unsuspend]
  cases placed with
  | gone deleted gone => exact .gone deleted { gone with settled := settled gone.settled }
  | postponed postponed => exact absurd postponed.unguarded (notUnguarded 1)
  | alive alive listing activity =>
      refine .alive alive (listing.congr rfl rfl rfl rfl rfl) ?_
      cases activity with
      | resting notQueued none inFlight status resting =>
          refine .resting notQueued none inFlight status ?_
          cases resting with
          | waits ordinary notDone positive counter =>
              refine .waits ordinary notDone ?_ ?_ <;> grind [Schedulable.unsuspend]
          | unguarded _ _ unguarded => exact absurd unguarded (notUnguarded _)
          | done ordinary isDone inPending before =>
              exact .done ordinary isDone inPending (settled before)
          | listed isSeq listed notDone counter =>
              refine .listed isSeq listed notDone ?_
              grind [Schedulable.unsuspend]
          | leftOver isSeq notListed counter onlyRanges =>
              refine .leftOver isSeq notListed ?_ onlyRanges
              grind [Schedulable.unsuspend]
      | queued once none scheduled =>
          refine .queued once none { scheduled with counter := ?_ }
          have counter := scheduled.counter
          grind [Schedulable.unsuspend]
      | held phase notQueued alone is =>
          refine .held phase notQueued alone ?_
          cases phase with
          | prepareBegin => exact absurd is.2.2 (Nat.ne_of_gt member)
          | prescheduled =>
              obtain ⟨fresh, isPrescheduled, counter⟩ := is
              refine ⟨{ fresh with }, isPrescheduled, ?_⟩
              grind [Schedulable.unsuspend]
          | preparing =>
              obtain ⟨fresh, plain, counter⟩ := is
              refine ⟨{ fresh with }, ?_, ?_⟩ <;> grind [Schedulable.unsuspend]
          | prepareEnd =>
              obtain ⟨inFlight, notPending, status, plain, isSeq, counter⟩ := is
              refine ⟨inFlight, notPending, status, ?_, isSeq, ?_⟩ <;> grind [Schedulable.unsuspend]
          | executeBegin =>
              rcases is with scheduled | ⟨executes, isSeq, notDone, notListed⟩
              · have counter := scheduled.counter
                refine .inl { scheduled with counter := ?_ }
                grind [Schedulable.unsuspend]
              · have counter := executes.counter
                refine .inr ⟨{ executes with counter := ?_ }, isSeq, notDone, notListed⟩
                grind [Schedulable.unsuspend]
          | executing =>
              obtain ⟨executes, notDone, notListed⟩ := is
              have counter := executes.counter
              refine ⟨{ executes with counter := ?_ }, notDone, notListed⟩
              grind [Schedulable.unsuspend]
          | executeEnd result =>
              rcases is with ⟨executes, ordinary, isDone⟩ | ⟨registered, isSeq⟩
              · have counter := executes.counter
                refine .inl ⟨{ executes with counter := ?_ }, ordinary, isDone⟩
                grind [Schedulable.unsuspend]
              · have counter := registered.counter
                refine .inr ⟨{ registered with counter := ?_ }, isSeq⟩
                grind [Schedulable.unsuspend]
          | succeeded => exact ⟨is.1, { is.2 with settled := settled is.2.settled }⟩
          | testing => exact ⟨is.1, { is.2 with settled := settled is.2.settled }⟩
          | deleting => exact ⟨is.1, { is.2.1 with settled := settled is.2.1.settled }, is.2.2⟩

theorem Placed.waits (placed : Placed loose k v (some x))
    (member : 0 < v.memberships) (last : x.sched.nSuspenders = 1)
    (ordinary : x.sequentialize = false) :
    x.deleted = false ∧ Listing k v x ∧ x.queued = 0 ∧ x.held = [] ∧ v.inFlight = 0 ∧
      x.sched.status ≠ .fromPending ∧ x.sched.status ≠ .done ∧ v.memberships = 1 ∧
      v.lockedPending = false := by
  have notUnguarded : ∀ guards, ¬ Unguarded loose v.memberships x.sched.nSuspenders guards :=
    fun guards unguarded =>
    Nat.ne_of_gt member unguarded.memberships
  have notSettled : ¬ Settled loose v x := by grind [Settled]
  cases placed with
  | gone _ gone => exact absurd gone.settled notSettled
  | postponed postponed => exact absurd postponed.unguarded (notUnguarded 1)
  | alive alive listing activity =>
      cases activity with
      | resting notQueued none inFlight status resting =>
          cases resting with
          | waits _ notDone _ counter =>
              refine ⟨alive, listing, notQueued, none, inFlight, status, notDone, ?_, ?_⟩ <;> grind
          | unguarded _ _ unguarded => exact absurd unguarded (notUnguarded _)
          | done _ _ _ settled => exact absurd settled notSettled
          | listed isSeq => simp [ordinary] at isSeq
          | leftOver isSeq => simp [ordinary] at isSeq
      | queued once none scheduled =>
          have counter := scheduled.counter
          grind
      | held phase notQueued alone is =>
          exfalso
          cases phase with
          | executeBegin =>
              rcases is with scheduled | ⟨executes, isSeq, -⟩
              · have counter := scheduled.counter
                grind
              · simp [ordinary] at isSeq
          | executing => exact notSettled is.1.settled
          | executeEnd result =>
              rcases is with ⟨executes, -⟩ | ⟨registered, -⟩
              · exact notSettled executes.settled
              · have isSeq := registered.sequentialize
                simp [ordinary] at isSeq
          | succeeded => exact notSettled is.2.settled
          | testing => exact notSettled is.2.settled
          | deleting => exact notSettled is.2.1.settled
          | prepareBegin => exact absurd is.2.2 (Nat.ne_of_gt member)
          | prescheduled =>
              obtain ⟨-, -, counter⟩ := is
              grind
          | preparing =>
              obtain ⟨-, -, counter⟩ := is
              grind
          | prepareEnd =>
              obtain ⟨-, -, -, -, -, counter⟩ := is
              grind

theorem Placed.resume (placed : Placed loose k v (some x))
    (member : 0 < v.memberships) (last : x.sched.nSuspenders = 1)
    (ordinary : x.sequentialize = false) (elsewhere : v.running = false) :
    Placed loose k { v with memberships := v.memberships - 1, inFlight := v.inFlight + 1 }
      (some { x.unsuspend with queued := x.queued + 1 }) := by
  obtain ⟨alive, listing, notQueued, none, inFlight, status, notDone, once, unlocked⟩ :=
    placed.waits member last ordinary
  refine .alive alive (listing.congr rfl rfl rfl rfl rfl) (.queued ?_ none
    ⟨?_, ordinary, elsewhere, unlocked, notDone, .inr ⟨status, ?_, ?_⟩⟩) <;>
    grind [Schedulable.unsuspend]

theorem Placed.postpone (placed : Placed true k v (some x))
    (member : 0 < v.memberships) (last : x.sched.nSuspenders = 1)
    (ordinary : x.sequentialize = false) (notListed : v.pending = 0) :
    Placed true k { v with
        memberships := v.memberships - 1, pending := v.pending + 1, lockedPending := true }
      (some x.unsuspend.setPending) := by
  obtain ⟨alive, listing, notQueued, none, inFlight, status, notDone, once, unlocked⟩ :=
    placed.waits member last ordinary
  have unguarded : Unguarded true (v.memberships - 1) x.unsuspend.sched.nSuspenders 1 := by
    refine ⟨rfl, ?_, ?_⟩ <;> grind [Schedulable.unsuspend]
  exact .postponed ⟨alive, ordinary, rfl, rfl, notQueued, none, inFlight, by simp [notListed], rfl,
    listing.unlisted ordinary, unguarded⟩

theorem Placed.create (placed : Placed loose k v (none : Option (Instance Step)))
    (thread : Option Step) : Placed loose k v (some (.create (.prepareBegin thread))) := by
  cases placed with
  | absent memberships inFlight pending seq =>
      refine .alive rfl ⟨pending, (fun impossible => by cases impossible), by omega, by omega⟩
        (.held (.prepareBegin thread) rfl rfl ⟨⟨inFlight, rfl, rfl, rfl⟩, rfl, memberships⟩)

/-- No worker has a schedulable which is listed for sequentialized execution, apart from the
one which has just registered it. -/
theorem Placed.sequentialized (placed : Placed loose k v (some x)) (listed : 0 < v.seq) :
    x.deleted = false ∧ x.queued = 0 ∧ .executeBegin ∉ x.held ∧ .executing ∉ x.held := by
  cases placed with
  | gone _ gone => exact absurd gone.seq (Nat.ne_of_gt listed)
  | postponed postponed => exact absurd postponed.seq (Nat.ne_of_gt listed)
  | alive alive listing activity =>
      cases activity with
      | resting notQueued none => exact ⟨alive, notQueued, by simp [none], by simp [none]⟩
      | queued _ _ scheduled =>
          exact absurd (listing.unlisted scheduled.sequentialize) (Nat.ne_of_gt listed)
      | held phase notQueued alone is =>
          refine ⟨alive, notQueued, ?_, ?_⟩
          · intro begins
            obtain rfl : .executeBegin = phase := by simpa [alone] using begins
            rcases is with scheduled | ⟨-, -, -, notListed⟩
            · exact absurd (listing.unlisted scheduled.sequentialize) (Nat.ne_of_gt listed)
            · exact absurd notListed (Nat.ne_of_gt listed)
          · intro executes
            obtain rfl : .executing = phase := by simpa [alone] using executes
            exact absurd is.2.2 (Nat.ne_of_gt listed)

/-- A schedulable which is done is pending at most, or was left over from a sequentialized
range. -/
theorem Placed.done_cases (placed : Placed loose k v (some x))
    (done : x.sched.status = .done) : (x.deleted = true ∧ Gone loose v x) ∨
      (x.deleted = false ∧ Listing k v x ∧
        ((k.isRange = true ∧ x.sequentialize = true) ∨ Gone loose { v with pending := 0 } x)) := by
  cases placed with
  | gone deleted gone => exact .inl ⟨deleted, gone⟩
  | postponed postponed => exact absurd (done.symm.trans postponed.status) (by simp)
  | alive alive listing activity =>
      refine .inr ⟨alive, listing, ?_⟩
      cases activity with
      | resting notQueued none inFlight status resting =>
          cases resting with
          | waits _ notDone => exact absurd done notDone
          | unguarded _ notDone => exact absurd done notDone
          | done ordinary _ _ settled =>
              exact .inr ⟨notQueued, settled, rfl, listing.unlisted ordinary,
                .inr ⟨.inl none, inFlight⟩⟩
          | listed _ _ notDone => exact absurd done notDone
          | leftOver isSeq _ _ onlyRanges => exact .inl ⟨onlyRanges done, isSeq⟩
      | queued once alone scheduled => exact absurd done scheduled.status
      | held phase notQueued alone is =>
          cases phase with
          | prepareBegin => exact absurd (done.symm.trans is.1.status) (by simp)
          | prescheduled => exact absurd (done.symm.trans is.1.status) (by simp)
          | preparing => exact absurd (done.symm.trans is.1.status) (by simp)
          | prepareEnd => exact absurd (done.symm.trans is.2.2.1) (by simp)
          | executeBegin =>
              rcases is with scheduled | ⟨-, -, notDone, -⟩
              · exact absurd done scheduled.status
              · exact absurd done notDone
          | executing => exact absurd done is.2.1
          | executeEnd result =>
              rcases is with ⟨-, -, -, isDone⟩ | ⟨registered, -⟩
              · exact .inl ⟨(isDone done).2.1, (isDone done).1⟩
              · exact absurd done registered.status.2
          | succeeded =>
              exact .inr ⟨notQueued, is.2.settled, rfl, is.2.seq, .inl ⟨alone, is.1⟩⟩
          | testing =>
              exact .inr ⟨notQueued, is.2.settled, rfl, is.2.seq,
                .inr ⟨.inr (.inl alone), is.1⟩⟩
          | deleting =>
              exact .inr ⟨notQueued, is.2.1.settled, rfl, is.2.1.seq,
                .inr ⟨.inr (.inr alone), is.1⟩⟩

/-- The creator of a plain step instance finds it done: no list holds it, and at most the
pass which has succeeded still knows it. -/
theorem Placed.testDone (placed : Placed loose k v (some x)) (plain : k.isRange = false)
    (done : x.sched.status = .done) : Placed loose k v (some x.delete) := by
  rcases placed.done_cases done with ⟨-, gone⟩ | ⟨alive, listing, ⟨isRange, -⟩ | gone⟩
  · exact .gone rfl { gone with }
  · simp [plain] at isRange
  · have notPending : x.inPending = false := by
      cases isPending : x.inPending with
      | false => rfl
      | true => exact absurd (listing.inPending isPending).1 (by simp [plain])
    have notListed : v.pending = 0 := by simpa [notPending] using listing.pending
    exact .gone rfl { gone with pending := notListed }

theorem Placed.deletePending (placed : Placed loose k v (some x))
    (listed : 0 < v.pending) (done : x.sched.status = .done) :
    Placed loose k { v with pending := 0, lockedPending := false } (some x.delete) := by
  rcases placed.done_cases done with ⟨-, gone⟩ | ⟨alive, listing, ⟨-, isSeq⟩ | gone⟩
  · exact absurd gone.pending (Nat.ne_of_gt listed)
  · have ordinary := (listing.inPending (listing.isPending listed)).2.1
    simp [ordinary] at isSeq
  · exact .gone rfl { gone with }

theorem Placed.relaunch (placed : Placed loose k v (some x))
    (listed : 0 < v.pending) (locked : v.lockedPending = true) (notDone : x.sched.status ≠ .done)
    (notRunning : v.running = false) :
    Placed loose k { v with pending := 0, lockedPending := false, inFlight := v.inFlight + 1 }
      (some { x.setStatus .fromPending with inPending := false, queued := x.queued + 1 }) := by
  have relaunched : x.deleted = false → v.seq = 0 → x.queued = 0 → x.held = [] →
      v.inFlight = 0 → x.sequentialize = false →
      (x.sched.nSuspenders = v.memberships + 1 ∨
       Unguarded loose v.memberships x.sched.nSuspenders 1) →
      Placed loose k { v with pending := 0, lockedPending := false, inFlight := v.inFlight + 1 }
        (some { x.setStatus .fromPending with inPending := false, queued := x.queued + 1 }) := by
    intro alive notListed notQueued none inFlight ordinary counter
    refine .alive alive ?_ (.queued ?_ none ⟨?_, ordinary, notRunning, rfl, ?_,
      .inl ⟨rfl, rfl, counter⟩⟩)
    · exact ⟨rfl, (fun impossible => by cases impossible), by simp [notListed], by simp [notListed]⟩
    · simp [notQueued]
    · simp [inFlight]
    · simp [Instance.setStatus]
  cases placed with
  | gone _ gone => exact absurd gone.pending (Nat.ne_of_gt listed)
  | postponed postponed =>
      exact relaunched postponed.alive postponed.seq postponed.queued postponed.held
        postponed.inFlight postponed.sequentialize (.inr postponed.unguarded)
  | alive alive listing activity =>
      have inPending := listing.isPending listed
      obtain ⟨isRange, ordinary, status⟩ := listing.inPending inPending
      have notListed := listing.unlisted ordinary
      cases activity with
      | resting notQueued none inFlight notFromPending resting =>
          cases resting with
          | done _ isDone => exact absurd isDone notDone
          | listed isSeq => simp [ordinary] at isSeq
          | leftOver isSeq => simp [ordinary] at isSeq
          | waits _ _ _ counter =>
              rw [if_pos locked] at counter
              exact relaunched alive notListed notQueued none inFlight ordinary (.inl counter)
          | unguarded _ _ unguarded =>
              rw [if_pos locked] at unguarded
              exact relaunched alive notListed notQueued none inFlight ordinary (.inr unguarded)
      | queued once alone scheduled => simp [scheduled.unlocked] at locked
      | held phase notQueued alone is =>
          exfalso
          cases phase with
          | prepareBegin => simp [is.1.inPending] at inPending
          | prescheduled => simp [is.1.inPending] at inPending
          | preparing => simp [is.1.inPending] at inPending
          | prepareEnd => simp [is.2.1] at inPending
          | executeBegin =>
              rcases is with scheduled | ⟨executes, -⟩
              · simp [scheduled.unlocked] at locked
              · simp [executes.unlocked] at locked
          | executing => simp [is.1.unlocked] at locked
          | executeEnd =>
              rcases is with ⟨executes, -⟩ | ⟨registered, -⟩
              · simp [executes.unlocked] at locked
              · simp [registered.unlocked.1] at locked
          | succeeded => exact notDone (is.2.status.resolve_right (by simp [inPending]))
          | testing => exact notDone (is.2.status.resolve_right (by simp [inPending]))
          | deleting => exact notDone (is.2.1.status.resolve_right (by simp [inPending]))

/-- While no worker runs and no call prepares, a schedulable which is not deleted rests or
has succeeded. -/
theorem Placed.quiet_cases (placed : Placed loose k v (some x))
    (inFlight : v.inFlight = 0) (unprepared : ∀ phase ∈ x.held, phase.preparesIn = none) :
    (x.deleted = true ∧ Gone loose v x) ∨ Postponed loose v x ∨
    (x.deleted = false ∧ Listing k v x ∧ x.queued = 0 ∧
      ((x.held = [] ∧ x.sched.status ≠ .fromPending ∧ Resting loose k v x) ∨ (Finished loose v x ∧
        (x.held = [.testing] ∨ x.held = [.deleting] ∧ x.inPending = false)))) := by
  cases placed with
  | gone deleted gone => exact .inl ⟨deleted, gone⟩
  | postponed postponed => exact .inr (.inl postponed)
  | alive alive listing activity =>
      refine .inr (.inr ⟨alive, listing, ?_⟩)
      cases activity with
      | resting notQueued none _ status resting => exact ⟨notQueued, .inl ⟨none, status, resting⟩⟩
      | queued _ _ scheduled => exact absurd (inFlight.symm.trans scheduled.inFlight) (by simp)
      | held phase notQueued alone is =>
          refine ⟨notQueued, .inr ?_⟩
          have outside := unprepared phase (by simp [alone])
          cases phase with
          | prepareBegin => cases outside
          | prescheduled => cases outside
          | preparing => cases outside
          | prepareEnd => cases outside
          | executeBegin =>
              rcases is with scheduled | ⟨executes, -⟩
              · exact absurd (inFlight.symm.trans scheduled.inFlight) (by simp)
              · exact absurd (inFlight.symm.trans executes.inFlight) (by simp)
          | executing => exact absurd (inFlight.symm.trans is.1.inFlight) (by simp)
          | executeEnd =>
              rcases is with ⟨executes, -⟩ | ⟨registered, -⟩
              · exact absurd (inFlight.symm.trans executes.inFlight) (by simp)
              · exact absurd (inFlight.symm.trans registered.inFlight) (by simp)
          | succeeded => exact absurd (inFlight.symm.trans is.1) (by simp)
          | testing => exact ⟨is.2, .inl alone⟩
          | deleting => exact ⟨is.2.1, .inr ⟨alone, is.2.2⟩⟩

theorem held_lock : (if x.sched.status = .done then x else x.suspend).held = x.held := by
  split <;> rfl

theorem Placed.lockPending (placed : Placed loose k v (some x))
    (inFlight : v.inFlight = 0) (unprepared : ∀ phase ∈ x.held, phase.preparesIn = none)
    (listed : 0 < v.pending) (unlocked : v.lockedPending = false) :
    Placed loose k { v with lockedPending := true }
      (some (if x.sched.status = .done then x else x.suspend)) := by
  rcases placed.quiet_cases inFlight unprepared with ⟨-, gone⟩ | postponed |
    ⟨alive, listing, notQueued, is⟩
  · exact absurd gone.pending (Nat.ne_of_gt listed)
  · simp [postponed.locked] at unlocked
  · have inPending : x.inPending = true := by
      by_contra notPending
      have notListed := listing.pending
      rw [if_neg notPending] at notListed
      omega
    obtain ⟨isRange, ordinary, status⟩ := listing.inPending inPending
    rcases is with ⟨none, notFromPending, resting⟩ | ⟨finished, held⟩
    · cases resting with
      | waits _ notDone positive counter =>
          rw [if_neg notDone]
          refine .alive alive (listing.congr rfl rfl rfl rfl rfl) (.resting notQueued none inFlight
            notFromPending (.waits ordinary notDone ?_ ?_)) <;> grind [Schedulable.suspend]
      | unguarded _ notDone unguarded =>
          have counter := unguarded.counter
          rw [if_neg notDone]
          refine .alive alive (listing.congr rfl rfl rfl rfl rfl) (.resting notQueued none inFlight
            notFromPending (.unguarded ordinary notDone { unguarded with counter := ?_ }))
          grind [Schedulable.suspend]
      | done _ isDone _ settled =>
          rw [if_pos isDone]
          exact .alive alive (listing.congr rfl rfl rfl rfl rfl) (.resting notQueued none inFlight
            notFromPending (.done ordinary isDone inPending settled))
      | listed isSeq => simp [ordinary] at isSeq
      | leftOver isSeq => simp [ordinary] at isSeq
    · have isDone : x.sched.status = .done := finished.status.resolve_right (by simp [inPending])
      have alone : x.held = [.testing] := held.resolve_right (by simp [inPending])
      rw [if_pos isDone]
      exact .alive alive (listing.congr rfl rfl rfl rfl rfl)
        (.held .testing notQueued alone ⟨inFlight, { finished with }⟩)

theorem Placed.lockSeq (placed : Placed loose k v (some x))
    (inFlight : v.inFlight = 0) (unprepared : ∀ phase ∈ x.held, phase.preparesIn = none)
    (listed : 0 < v.seq) (unlocked : v.lockedSeq = false) :
    Placed loose k { v with lockedSeq := true }
      (some (if x.sched.status = .done then x else x.suspend)) := by
  rcases placed.quiet_cases inFlight unprepared with ⟨-, gone⟩ | postponed |
    ⟨alive, listing, notQueued, ⟨none, notFromPending, resting⟩ | ⟨finished, -⟩⟩
  · exact absurd gone.seq (Nat.ne_of_gt listed)
  · exact absurd postponed.seq (Nat.ne_of_gt listed)
  · cases resting with
    | waits ordinary => exact absurd (listing.unlisted ordinary) (Nat.ne_of_gt listed)
    | unguarded ordinary => exact absurd (listing.unlisted ordinary) (Nat.ne_of_gt listed)
    | done ordinary => exact absurd (listing.unlisted ordinary) (Nat.ne_of_gt listed)
    | leftOver _ notListed => exact absurd notListed (Nat.ne_of_gt listed)
    | listed isSeq once notDone counter =>
        rw [if_neg notDone]
        refine .alive alive (listing.congr rfl rfl rfl rfl rfl) (.resting notQueued none inFlight
          notFromPending (.listed isSeq once notDone ?_))
        grind [Schedulable.suspend]
  · exact absurd finished.seq (Nat.ne_of_gt listed)

/-- The wait thread takes a locked schedulable out of its copy of `m_seqSteps`, to execute
it. -/
theorem Placed.runSequential (placed : Placed loose k v (some x))
    (inFlight : v.inFlight = 0) (unprepared : ∀ phase ∈ x.held, phase.preparesIn = none)
    (listed : 0 < v.seq) (locked : v.lockedSeq = true)
    (unlocked : v.pending = 0 → v.lockedPending = false) :
    Placed loose k { v with inFlight := 1, seq := 0, lockedSeq := false, running := true }
      (some { x with held := .executeBegin :: x.held }) := by
  rcases placed.quiet_cases inFlight unprepared with ⟨-, gone⟩ | postponed |
    ⟨alive, listing, notQueued, ⟨none, notFromPending, resting⟩ | ⟨finished, -⟩⟩
  · exact absurd gone.seq (Nat.ne_of_gt listed)
  · exact absurd postponed.seq (Nat.ne_of_gt listed)
  · cases resting with
    | waits ordinary => exact absurd (listing.unlisted ordinary) (Nat.ne_of_gt listed)
    | unguarded ordinary => exact absurd (listing.unlisted ordinary) (Nat.ne_of_gt listed)
    | done ordinary => exact absurd (listing.unlisted ordinary) (Nat.ne_of_gt listed)
    | leftOver _ notListed => exact absurd notListed (Nat.ne_of_gt listed)
    | listed isSeq once notDone counter =>
        have notPending : x.inPending = false := by
          cases isPending : x.inPending with
          | false => rfl
          | true => exact absurd (listing.inPending isPending).2.1 (by simp [isSeq])
        have notListed : v.pending = 0 := by simpa [notPending] using listing.pending
        rw [if_pos locked] at counter
        refine .alive alive ?_ (.held .executeBegin notQueued ?_ (.inr ⟨⟨rfl, unlocked notListed,
          notFromPending, .inr ⟨isSeq, rfl, ?_⟩⟩, isSeq, notDone, rfl⟩))
        · exact { listing with seq_le := Nat.zero_le 1, seq := fun _ => isSeq }
        · simp [none]
        · simpa using counter
  · exact absurd finished.seq (Nat.ne_of_gt listed)

variable [DecidableEq Step]

theorem Placed.begin (placed : Placed loose k v (some x))
    (held : .executeBegin ∈ x.held) :
    Placed loose k v (some (
      let y := if x.sched.status = .fromPending then x.setStatus .prepared else x.suspend
      { y.goto .executeBegin .executing with sched := y.sched.resetWasSuspended })) := by
  obtain ⟨alive, listing, notQueued, alone, begins⟩ := placed.of_held held (by simp)
  have unlisted := listing.unlisted
  obtain ⟨pending, inPending, seqLe, seq⟩ := listing
  rcases begins with ⟨inFlight, ordinary, running, unlocked, status, counter⟩ |
    ⟨⟨inFlight, unlocked, status, counter⟩, isSeq, notDone, notListed⟩
  · refine .alive ?_ ?_ (.held .executing ?_ ?_ ⟨?_, ?_, ?_⟩) <;>
    grind [Listing, Executes, Unguarded, Schedulable.resetWasSuspended, Schedulable.suspend]
  · refine .alive ?_ ?_ (.held .executing ?_ ?_ ⟨?_, ?_, ?_⟩) <;>
    grind [Listing, Executes, Unguarded, Schedulable.resetWasSuspended, Schedulable.suspend]

/-- Either the last suspend is taken and the loop goes on, or the schedulable is left
to its suspend groups or to the list it is in. -/
theorem Placed.again {result : StepReturnValue}
    (placed : Placed loose k v (some x)) (held : .executeEnd result ∈ x.held)
    (last : x.sched.unsuspend.2 = true) (notDone : x.sched.status ≠ .done)
    (parallel : result ≠ .needsSequentialize) :
    Placed loose k v (some (x.unsuspend.goto (.executeEnd result) .executeBegin)) := by
  obtain ⟨alive, listing, notQueued, alone, ends⟩ := placed.of_held held (by simp)
  have one := unsuspend_last.mp last
  refine .alive alive (listing.congr rfl rfl rfl rfl rfl) (.held .executeBegin notQueued ?_ ?_)
  · simp [Instance.goto, Instance.unsuspend, alone]
  rcases ends with ⟨⟨inFlight, unlocked, status, counter⟩, -, notListed, -⟩ | ⟨-, isSeq⟩
  · rcases counter with ⟨ordinary, running, counter | unguarded⟩ | ⟨isSeq, running, counter⟩
    · refine .inl ⟨inFlight, ordinary, running, unlocked, notDone, .inr ⟨status, ?_, ?_⟩⟩ <;>
        grind [Schedulable.unsuspend]
    · exact absurd unguarded.counter (by simp [one])
    · refine .inr ⟨⟨inFlight, unlocked, status, .inr ⟨isSeq, running, fun strict => ?_⟩⟩, isSeq,
        notDone, notListed parallel⟩
      grind [Schedulable.unsuspend]
  · exact absurd isSeq parallel

theorem Placed.leave {result : StepReturnValue}
    (placed : Placed loose k v (some x)) (held : .executeEnd result ∈ x.held)
    (done : ¬ (x.sched.unsuspend.2 = true ∧ x.sched.status ≠ .done ∧
      result ≠ .needsSequentialize)) :
    Placed loose k { v with inFlight := 0, running := false }
      (some (x.unsuspend.release (.executeEnd result))) := by
  obtain ⟨alive, listing, notQueued, alone, ends⟩ := placed.of_held held (by simp)
  have unlisted := listing.unlisted
  have seqLe := listing.seq_le
  refine .alive alive (listing.congr rfl rfl rfl rfl rfl) (.resting notQueued ?_ rfl ?_ ?_)
  · simp [Instance.release, Instance.unsuspend, alone]
  · rcases ends with ⟨executes, -⟩ | ⟨registered, -⟩
    · exact executes.status
    · exact registered.status.1
  · rcases ends with ⟨⟨inFlight, unlocked, status, counter⟩, ordinary, -, isDone⟩ |
      ⟨⟨inFlight, running, unlocked, isSeq, listed, status, counter⟩, -⟩
    · rcases counter with ⟨notSeq, running, counter | unguarded⟩ | ⟨isSeq, running, counter⟩
      · refine .waits ?_ ?_ ?_ ?_ <;> grind [Schedulable.unsuspend]
      · refine .unguarded notSeq (fun done => ?_) { unguarded with counter := ?_ } <;>
          grind [Unguarded, Schedulable.unsuspend]
      · by_cases isListed : v.seq = 1
        · refine .listed ?_ ?_ ?_ ?_ <;> grind [Schedulable.unsuspend]
        · refine .leftOver ?_ ?_ ?_ ?_ <;> grind [Schedulable.unsuspend]
    · refine .listed ?_ ?_ ?_ ?_ <;> grind [Schedulable.unsuspend]

theorem Placed.decrement (placed : Placed loose k v (some x))
    (held : .succeeded ∈ x.held) :
    Placed loose k { v with inFlight := 0 } (some (x.goto .succeeded .testing)) := by
  obtain ⟨notQueued, alone, ⟨deleted, gone⟩ | ⟨alive, listing, is⟩⟩ := placed.held_cases held
  all_goals
    have here : (x.goto .succeeded .testing).held = [.testing] := by simp [Instance.goto, alone]
  · exact .gone deleted ⟨notQueued, gone.settled, gone.pending, gone.seq,
      .inr ⟨.inr (.inl here), rfl⟩⟩
  · exact .alive alive (listing.congr rfl rfl rfl rfl rfl)
      (.held .testing notQueued here ⟨rfl, { is.2 with }⟩)

theorem Placed.test (placed : Placed loose k v (some x))
    (held : .testing ∈ x.held) (inPending : x.inPending = true) :
    v.inFlight = 0 ∧
      Placed loose k { v with inFlight := 0, running := false } (some (x.release .testing)) := by
  obtain ⟨notQueued, alone, ⟨deleted, gone⟩ | ⟨alive, listing, is⟩⟩ := placed.held_cases held
  all_goals
    have here : (x.release .testing).held = [] := by simp [Instance.release, alone]
  · exact ⟨gone.inFlight_eq alone (by simp), .gone deleted ⟨notQueued, gone.settled,
      gone.pending, gone.seq, .inr ⟨.inl here, rfl⟩⟩⟩
  · obtain ⟨inFlight, memberships, seq, status⟩ := is
    have isDone : x.sched.status = .done := status.resolve_right (by simp [inPending])
    refine ⟨inFlight, .alive alive (listing.congr rfl rfl rfl rfl rfl) (.resting notQueued here rfl
      ?_ (.done (listing.inPending inPending).2.1 isDone inPending memberships))⟩
    simp [Instance.release, isDone]

theorem Placed.tested (placed : Placed loose k v (some x))
    (held : .testing ∈ x.held) (inPending : x.inPending = false) :
    Placed loose k v (some (x.goto .testing .deleting)) := by
  obtain ⟨notQueued, alone, ⟨deleted, gone⟩ | ⟨alive, listing, is⟩⟩ := placed.held_cases held
  all_goals
    have here : (x.goto .testing .deleting).held = [.deleting] := by simp [Instance.goto, alone]
  · exact .gone deleted ⟨notQueued, gone.settled, gone.pending, gone.seq,
      .inr ⟨.inr (.inr here), gone.inFlight_eq alone (by simp)⟩⟩
  · exact .alive alive (listing.congr rfl rfl rfl rfl rfl)
      (.held .deleting notQueued here ⟨is.1, { is.2 with }, inPending⟩)

theorem Placed.delete (placed : Placed loose k v (some x))
    (held : .deleting ∈ x.held) :
    v.inFlight = 0 ∧
      Placed loose k { v with inFlight := 0, running := false }
        (some (x.delete.release .deleting)) := by
  obtain ⟨notQueued, alone, ⟨deleted, gone⟩ | ⟨alive, listing, is⟩⟩ := placed.held_cases held
  all_goals
    have here : (x.delete.release .deleting).held = [] := by
      simp [Instance.delete, Instance.release, alone]
  · exact ⟨gone.inFlight_eq alone (by simp), .gone rfl ⟨notQueued, gone.settled,
      gone.pending, gone.seq, .inr ⟨.inl here, rfl⟩⟩⟩
  · obtain ⟨inFlight, finished, notPending⟩ := is
    refine ⟨inFlight, .gone rfl ⟨notQueued, finished.settled, ?_, finished.seq,
      .inr ⟨.inl here, rfl⟩⟩⟩
    simpa [notPending] using listing.pending

theorem Placed.canceled (placed : Placed loose k v (some x))
    (held : .executing ∈ x.held) (plain : k.isRange = false) :
    Placed loose k v (some (x.goto .executing .succeeded)) := by
  obtain ⟨alive, listing, notQueued, alone, executes, -, notListed⟩ := placed.of_held held (by simp)
  refine .alive alive (listing.congr rfl rfl rfl rfl rfl) (.held .succeeded notQueued ?_
    ⟨executes.inFlight, executes.settled, notListed, .inr ?_⟩)
  · simp [Instance.goto, alone]
  · cases isPending : x.inPending with
    | false => exact isPending
    | true => exact absurd (listing.inPending isPending).1 (by simp [plain])

theorem Placed.unfinished (placed : Placed loose k v (some x))
    (held : .executing ∈ x.held) {result : StepReturnValue}
    (parallel : x.sequentialize = false → result = .unfinished) :
    Placed loose k v (some ((x.allocate k).goto .executing (.executeEnd result))) := by
  obtain ⟨alive, listing, notQueued, alone, executes, notDone, notListed⟩ :=
    placed.of_held held (by simp)
  refine .alive alive (listing.congr rfl rfl rfl rfl rfl) (.held (.executeEnd result) notQueued ?_
    (.inl ⟨{ executes with }, parallel, fun _ => notListed, fun done => absurd done notDone⟩))
  simp [Instance.goto, Instance.allocate, alone]

theorem Placed.succeed (placed : Placed loose k v (some x))
    (held : .executing ∈ x.held)
    (kept : phase = .succeeded ∨
      (phase = .executeEnd .needsSequentialize ∧ k.isRange = true ∧ x.sequentialize = true)) :
    Placed loose k v (some (((x.setStatus .done).allocate k).goto .executing phase)) := by
  obtain ⟨alive, listing, notQueued, alone, executes, notDone, notListed⟩ :=
    placed.of_held held (by simp)
  refine .alive alive { listing with inPending := fun isPending => ?_ }
    (.held phase notQueued ?_ ?_)
  · obtain ⟨isRange, ordinary, -⟩ := listing.inPending isPending
    exact ⟨isRange, ordinary, .inr rfl⟩
  · simp [Instance.goto, Instance.allocate, Instance.setStatus, alone]
  · rcases kept with rfl | ⟨rfl, isRange, isSeq⟩
    · exact ⟨executes.inFlight, executes.settled, notListed, .inl rfl⟩
    · refine .inl ⟨{ executes with status := ?_ }, fun ordinary => ?_, fun _ => notListed,
        fun _ => ⟨isSeq, isRange, notListed⟩⟩
      · simp [Instance.goto, Instance.allocate, Instance.setStatus]
      · rw [show x.sequentialize = false from ordinary] at isSeq
        cases isSeq

theorem Placed.wake (placed : Placed loose k v (some x))
    (held : .executing ∈ x.held) (isRange : k.isRange = true) (notPending : x.inPending = false)
    (ordinary : x.sequentialize = false) :
    Placed loose k { v with pending := v.pending + 1 }
      (some ((x.setPending.allocate k).goto
        .executing (.executeEnd .unfinished))) := by
  obtain ⟨alive, listing, notQueued, alone, executes, notDone, notListed⟩ :=
    placed.of_held held (by simp)
  obtain ⟨inFlight, unlocked, status, counter⟩ := executes
  have none : v.pending = 0 := by simpa [notPending] using listing.pending
  refine .alive alive ?_ (.held (.executeEnd .unfinished) notQueued ?_
    (.inl ⟨?_, fun _ => rfl, fun _ => notListed, ?_⟩))
  · refine ⟨?_, fun _ => ⟨isRange, ordinary, .inl rfl⟩, listing.seq_le, listing.seq⟩
    simp [Instance.goto, Instance.allocate, Instance.setPending, none]
  · simp [Instance.goto, Instance.allocate, Instance.setPending, Instance.setStatus, alone]
  · refine ⟨inFlight, unlocked, ?_, counter⟩
    simp [Instance.goto, Instance.allocate, Instance.setPending, Instance.setStatus]
  · simp [Instance.goto, Instance.allocate, Instance.setPending, Instance.setStatus]

theorem Placed.register (placed : Placed loose k v (some x))
    (held : .executing ∈ x.held) (notPending : x.inPending = false)
    (unlocked : v.running = false → v.lockedSeq = false) :
    Placed loose k { v with seq := v.seq + 1 }
      (some ((x.setSequentialize.allocate k).goto
        .executing (.executeEnd .needsSequentialize))) := by
  obtain ⟨alive, listing, notQueued, alone, executes, notDone, notListed⟩ :=
    placed.of_held held (by simp)
  obtain ⟨inFlight, unlockedPending, status, counter⟩ := executes
  refine .alive alive ?_ (.held (.executeEnd .needsSequentialize) notQueued ?_ ?_)
  · refine ⟨listing.pending, fun isPending => ?_, by simp [notListed], fun _ => rfl⟩
    rw [show x.inPending = true from isPending] at notPending
    cases notPending
  · simp [Instance.goto, Instance.allocate, Instance.setSequentialize, alone]
  · rcases counter with ⟨ordinary, notRunning, counter⟩ | ⟨isSeq, running, counter⟩
    · refine .inr ⟨⟨inFlight, notRunning, ⟨unlockedPending, unlocked notRunning⟩, rfl,
        by simp [notListed], ⟨status, notDone⟩, fun strict => ?_⟩, rfl⟩
      exact counter.resolve_right fun unguarded => by simp [unguarded.loose] at strict
    · exact .inl ⟨⟨inFlight, unlockedPending, status, .inr ⟨rfl, running, counter⟩⟩,
        (fun impossible => by cases impossible), fun different => absurd rfl different,
        fun done => absurd done notDone⟩

theorem Placed.preschedule (placed : Placed loose k v (some x))
    (held : .prepareBegin thread ∈ x.held) (preschedules : k = .step false true) (extra : Bool) :
    Placed loose k v (some ((if extra then x.guard.suspend else x.guard).goto
      (.prepareBegin thread) (.prescheduled thread extra))) := by
  obtain ⟨alive, listing, notQueued, alone, fresh, counter, noGroups⟩ :=
    placed.of_held held (by simp)
  cases extra with
  | false =>
      refine .alive alive (listing.congr rfl rfl rfl rfl rfl) (.held (.prescheduled thread false)
        notQueued ?_ ⟨{ fresh with }, preschedules, ?_⟩)
      · simp [Instance.goto, Instance.guard, alone]
      · grind [Schedulable.suspend, Schedulable.resetWasSuspended]
  | true =>
      refine .alive alive (listing.congr rfl rfl rfl rfl rfl) (.held (.prescheduled thread true)
        notQueued ?_ ⟨{ fresh with }, preschedules, ?_⟩)
      · simp [Instance.goto, Instance.guard, Instance.suspend, alone]
      · grind [Schedulable.suspend, Schedulable.resetWasSuspended]

theorem Placed.prepare (placed : Placed loose k v (some x))
    (held : .prepareBegin thread ∈ x.held) (observed : Bool) :
    Placed loose k v (some ((if observed then x.suspend else x.guard).goto
      (.prepareBegin thread) (.preparing thread))) := by
  obtain ⟨alive, listing, notQueued, alone, fresh, counter, noGroups⟩ :=
    placed.of_held held (by simp)
  cases observed with
  | false =>
      refine .alive alive (listing.congr rfl rfl rfl rfl rfl) (.held (.preparing thread)
        notQueued ?_ ⟨{ fresh with }, fun _ => noGroups, ?_⟩)
      · simp [Instance.goto, Instance.guard, alone]
      · grind [Schedulable.suspend, Schedulable.resetWasSuspended]
  | true =>
      refine .alive alive (listing.congr rfl rfl rfl rfl rfl) (.held (.preparing thread)
        notQueued ?_ ⟨{ fresh with }, fun _ => noGroups, ?_⟩)
      · simp [Instance.goto, Instance.suspend, alone]
      · grind [Schedulable.suspend, Schedulable.resetWasSuspended]

theorem Placed.prepared (placed : Placed loose k v (some x))
    (held : .preparing thread ∈ x.held) :
    Placed loose k v
      (some ((x.setStatus .prepared).goto (.preparing thread) (.prepareEnd thread))) := by
  obtain ⟨alive, listing, notQueued, alone, fresh, plain, counter⟩ := placed.of_held held (by simp)
  have fresh' := fresh
  obtain ⟨inFlight, notPending, ordinary, status⟩ := fresh
  refine .alive alive ?_ (.held (.prepareEnd thread) notQueued ?_ ⟨inFlight, notPending, rfl, plain,
    fun isSeq => ?_, counter⟩)
  · refine { listing with inPending := fun isPending => ?_ }
    rw [show x.inPending = true from isPending] at notPending
    cases notPending
  · simp [Instance.goto, Instance.setStatus, alone]
  · rw [show x.sequentialize = true from isSeq] at ordinary
    cases ordinary

theorem Placed.prescheduled {extra : Bool} (placed : Placed loose k v (some x))
    (held : .prescheduled thread extra ∈ x.held) :
    Placed loose k v (some (((if extra then x.unsuspend else x).setStatus .prepared).goto
      (.prescheduled thread extra) (.prepareEnd thread))) := by
  obtain ⟨alive, listing, notQueued, alone, ⟨inFlight, notPending, ordinary, status⟩,
    isPrescheduled, counter⟩ := placed.of_held held (by simp)
  obtain ⟨pending, inPending, seqLe, seq⟩ := listing
  refine .alive ?_ ?_ (.held (.prepareEnd thread) ?_ ?_ ⟨inFlight, ?_, ?_, ?_, ?_, ?_⟩) <;>
    cases extra <;> grind [Listing, Kind.isRange, Schedulable.unsuspend]

theorem Placed.preregister {extra : Bool} (placed : Placed loose k v (some x))
    (held : .prescheduled thread extra ∈ x.held) (unlocked : v.lockedSeq = false) :
    Placed loose k { v with seq := v.seq + 1 } (some (((if extra then x.setSequentialize.unsuspend
      else x.setSequentialize).setStatus .prepared).goto
        (.prescheduled thread extra) (.prepareEnd thread))) := by
  obtain ⟨alive, listing, notQueued, alone, ⟨inFlight, notPending, ordinary, status⟩,
    isPrescheduled, counter⟩ := placed.of_held held (by simp)
  have notListed := listing.unlisted ordinary
  obtain ⟨pending, inPending, seqLe, seq⟩ := listing
  refine .alive ?_ ?_ (.held (.prepareEnd thread) ?_ ?_ ⟨inFlight, ?_, ?_, ?_, ?_, ?_⟩) <;>
    cases extra <;> grind [Listing, Kind.isRange, Schedulable.unsuspend]

theorem Placed.presucceed {extra : Bool} (placed : Placed loose k v (some x))
    (held : .prescheduled thread extra ∈ x.held) :
    Placed loose k v (some ((x.setStatus .done).release (.prescheduled thread extra)).delete) := by
  obtain ⟨alive, listing, notQueued, alone, ⟨inFlight, notPending, ordinary, status⟩,
    isPrescheduled, counter⟩ := placed.of_held held (by simp)
  have guarded : (v.memberships : Int) + 1 ≤ x.sched.nSuspenders := by
    rw [counter]
    split <;> omega
  refine .gone rfl ⟨notQueued, .inl guarded, ?_, listing.unlisted ordinary,
      .inr ⟨.inl ?_, inFlight⟩⟩
  · simpa [notPending] using listing.pending
  · simp [Instance.delete, Instance.release, Instance.setStatus, alone]

theorem Placed.endSequentialized {preschedule : Bool}
    (placed : Placed loose k v (some x)) (held : .prepareEnd thread ∈ x.held)
    (asks : k = .step true preschedule) :
    Placed loose k { v with seq := v.seq + 1 }
      (some (x.release (.prepareEnd thread)).setSequentialize) := by
  obtain ⟨alive, listing, notQueued, alone, inFlight, notPending, status, plain, isSeq, counter⟩ :=
    placed.of_held held (by simp)
  have ordinary : x.sequentialize = false := by
    cases isSequentialized : x.sequentialize with
    | false => rfl
    | true => exact absurd (asks.symm.trans (isSeq isSequentialized).1) (by simp)
  have notListed := listing.unlisted ordinary
  obtain ⟨pending, inPending, seqLe, seq⟩ := listing
  refine .alive ?_ ?_ (.resting ?_ ?_ inFlight ?_ (.listed ?_ ?_ ?_ ?_)) <;> grind [Listing]

theorem Placed.endScheduled (placed : Placed loose k v (some x))
    (held : .prepareEnd thread ∈ x.held) (last : k.isRange = true ∨ x.sched.nSuspenders = 1)
    (ordinary : x.sequentialize = false) (elsewhere : v.running = false)
    (unlocked : v.pending = 0 → v.lockedPending = false) :
    Placed loose k { v with inFlight := v.inFlight + 1 }
      (some (({ (x.release (.prepareEnd thread)).unsuspend with
        queued := x.queued + 1 } : Instance Step))) := by
  obtain ⟨alive, listing, notQueued, alone, inFlight, notPending, status, plain, isSeq, counter⟩ :=
    placed.of_held held (by simp)
  have notListed : v.pending = 0 := by simpa [notPending] using listing.pending
  refine .alive alive (listing.congr rfl rfl rfl rfl rfl) (.queued ?_ ?_
    ⟨?_, ordinary, elsewhere, unlocked notListed, ?_, .inr ⟨?_, ?_, ?_⟩⟩) <;>
    grind [Schedulable.unsuspend]

theorem Placed.endPostponed (placed : Placed true k v (some x))
    (held : .prepareEnd thread ∈ x.held) (last : k.isRange = true ∨ x.sched.nSuspenders = 1)
    (ordinary : x.sequentialize = false) :
    Placed true k { v with pending := v.pending + 1, lockedPending := true }
      (some (x.release (.prepareEnd thread)).unsuspend.setPending) := by
  obtain ⟨alive, listing, notQueued, alone, inFlight, notPending, status, plain, isSeq, counter⟩ :=
    placed.of_held held (by simp)
  have notListed : v.pending = 0 := by simpa [notPending] using listing.pending
  have none : (x.release (.prepareEnd thread)).held = [] := by simp [Instance.release, alone]
  have noGroups : v.memberships = 0 := by grind
  have unguarded : Unguarded true v.memberships
      (x.release (.prepareEnd thread)).unsuspend.sched.nSuspenders 1 := by
    refine ⟨rfl, noGroups, ?_⟩
    grind [Schedulable.unsuspend]
  exact .postponed ⟨alive, ordinary, rfl, rfl, notQueued, none, inFlight, by simp [notListed], rfl,
    listing.unlisted ordinary, unguarded⟩

theorem Placed.endSuspended (placed : Placed loose k v (some x))
    (held : .prepareEnd thread ∈ x.held) (more : x.sched.nSuspenders ≠ 1)
    (unlocked : v.pending = 0 → v.lockedPending = false) :
    Placed loose k v (some (x.release (.prepareEnd thread)).unsuspend) := by
  obtain ⟨alive, listing, notQueued, alone, inFlight, notPending, status, plain, isSeq, counter⟩ :=
    placed.of_held held (by simp)
  have notListed : v.pending = 0 := by simpa [notPending] using listing.pending
  have notLocked := unlocked notListed
  refine .alive alive (listing.congr rfl rfl rfl rfl rfl) (.resting notQueued ?_ inFlight ?_ ?_)
  · simp [Instance.release, Instance.unsuspend, alone]
  · simp [Instance.release, Instance.unsuspend, Schedulable.unsuspend, status]
  · cases isSequentialized : x.sequentialize with
    | false => refine .waits ?_ ?_ ?_ ?_ <;> grind [Schedulable.unsuspend]
    | true => refine .listed ?_ ?_ ?_ ?_ <;> grind [Schedulable.unsuspend]

end Places

end CnC.WaitAll
