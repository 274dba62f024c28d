import CnC.Library.Network
import CnC.Library.Transition

/-!
# Cancellation

Every process has a tuner with the tags which are canceled and a flag which cancels all.  A call
on one process is passed on to all others, unless it cancels a tag of a process which has the
flag already.

The calls and the handlers of messages run in any number of threads, and every step of a thread
is one atomic operation.
-/

namespace CnC.Scheduler.Cancel

open Network Transition

variable {n : Nat} {Thread Tag : Type}

inductive Msg (Tag : Type) where
  | single (tag : Tag)
  | all
  deriving DecidableEq

/-- The next operation of a thread: those of `cancel`, and those of `cancel_all`. -/
inductive Pc (Tag : Type) where
  | idle
  | cancelTest (tag : Tag) (fromMsg : Bool)
  | cancelBcast (tag : Tag)
  | cancelInsert (tag : Tag)
  | allBcast
  | allStore
  deriving DecidableEq

/-- The members `m_canceledTags` and `m_cancelAll` of the tuner of a process, and its threads. -/
structure Tuner (Thread Tag : Type) where
  canceledTags : Finset Tag
  cancelAll : Bool
  pcs : Thread → Pc Tag

/-- The tuners and the messages on their way.  No operation reads `called`, the calls which have
been made. -/
structure State (n : Nat) (Thread Tag : Type) where
  tuner : Fin n → Tuner Thread Tag
  inFlight : List (Fin n × Msg Tag)
  called : List (Msg Tag)

/-- A call of `cancel` or `cancel_all`, the delivery of any message which is on its way, or an
operation. -/
inductive Action (n : Nat) (Thread Tag : Type) where
  | call (pid : Fin n) (thread : Thread) (request : Msg Tag)
  | receive (pid : Fin n) (thread : Thread) (message : Msg Tag)
  | run (pid : Fin n) (thread : Thread)

def Tuner.wasCanceled [DecidableEq Tag] (tuner : Tuner Thread Tag) (tag : Tag) : Bool :=
  tuner.cancelAll || decide (tag ∈ tuner.canceledTags)

section Operations

variable [DecidableEq Thread] [DecidableEq Tag]

def Tuner.goto (tuner : Tuner Thread Tag) (thread : Thread) (pc : Pc Tag) : Tuner Thread Tag :=
  { tuner with pcs := Function.update tuner.pcs thread pc }

/-- `bcast_msg` of the process, if there are others. -/
def bcast (pid : Fin n) (message : Msg Tag) : List (Fin n × Msg Tag) :=
  (others pid).map fun receiver => (receiver, message)

/-- One operation of a thread, and the messages which it sends. -/
def advance (pid : Fin n) (tuner : Tuner Thread Tag) (thread : Thread) :
    Option (Tuner Thread Tag × List (Fin n × Msg Tag)) :=
  match tuner.pcs thread with
  | .idle => none
  | .cancelTest tag fromMsg =>
      if tuner.cancelAll then some (tuner.goto thread .idle, [])
      else if !fromMsg && decide (1 < n) then some (tuner.goto thread (.cancelBcast tag), [])
      else some (tuner.goto thread (.cancelInsert tag), [])
  | .cancelBcast tag => some (tuner.goto thread (.cancelInsert tag), bcast pid (.single tag))
  | .cancelInsert tag =>
      some ({ tuner.goto thread .idle with canceledTags := insert tag tuner.canceledTags }, [])
  | .allBcast => some (tuner.goto thread .allStore, bcast pid .all)
  | .allStore => some ({ tuner.goto thread .idle with cancelAll := true }, [])

/-- The begin of `cancel` and `cancel_all`. -/
def begin (n : Nat) (fromMsg : Bool) : Msg Tag → Pc Tag
  | .single tag => .cancelTest tag fromMsg
  | .all => if !fromMsg && decide (1 < n) then .allBcast else .allStore

def State.setTuner (s : State n Thread Tag) (pid : Fin n) (tuner : Tuner Thread Tag) :
    State n Thread Tag :=
  { s with tuner := Function.update s.tuner pid tuner }

def step (s : State n Thread Tag) : Action n Thread Tag → Option (State n Thread Tag)
  | .call pid thread request =>
      if (s.tuner pid).pcs thread = .idle then
        some { s.setTuner pid ((s.tuner pid).goto thread (begin n false request)) with
          called := request :: s.called }
      else none
  | .receive pid thread message =>
      if (s.tuner pid).pcs thread = .idle ∧ (pid, message) ∈ s.inFlight then
        some { s.setTuner pid ((s.tuner pid).goto thread (begin n true message)) with
          inFlight := s.inFlight.erase (pid, message) }
      else none
  | .run pid thread =>
      (advance pid (s.tuner pid) thread).map fun result =>
        { s.setTuner pid result.1 with inFlight := s.inFlight ++ result.2 }

def start (n : Nat) (Thread Tag : Type) : State n Thread Tag where
  tuner _ := ⟨∅, false, fun _ => .idle⟩
  inFlight := []
  called := []

def system (n : Nat) (Thread Tag : Type) [DecidableEq Thread] [DecidableEq Tag] :
    System (State n Thread Tag) (Action n Thread Tag) where
  Initial s := s = start n Thread Tag
  step := step

end Operations

/-- No message is on its way, and all calls and handlers have returned. -/
def State.Quiet (s : State n Thread Tag) : Prop :=
  s.inFlight = [] ∧ ∀ pid thread, (s.tuner pid).pcs thread = .idle

namespace Pc

def unsent : Pc Tag → Option (Msg Tag)
  | cancelTest tag false | cancelBcast tag => some (.single tag)
  | allBcast => some .all
  | _ => none

/-- The request which the thread will store. -/
def stores : Pc Tag → Option (Msg Tag)
  | cancelTest tag true | cancelInsert tag => some (.single tag)
  | allStore => some .all
  | _ => none

end Pc

def Tuner.Stored (tuner : Tuner Thread Tag) : Msg Tag → Prop
  | .single tag => tag ∈ tuner.canceledTags
  | .all => tuner.cancelAll = true

structure Backed (s : State n Thread Tag) : Prop where
  stored : ∀ pid request, (s.tuner pid).Stored request → request ∈ s.called
  sent : ∀ message ∈ s.inFlight, message.2 ∈ s.called
  pcs : ∀ pid thread request, ((s.tuner pid).pcs thread).unsent = some request ∨
    ((s.tuner pid).pcs thread).stores = some request → request ∈ s.called

def State.Arrives (s : State n Thread Tag) (request : Msg Tag) (pid : Fin n) : Prop :=
  (s.tuner pid).Stored request ∨ (pid, request) ∈ s.inFlight ∨
    ∃ thread, ((s.tuner pid).pcs thread).stores = some request

/-- The request has not been sent yet, or it will be stored everywhere. -/
def State.Covers (s : State n Thread Tag) (request : Msg Tag) : Prop :=
  (∃ pid thread, ((s.tuner pid).pcs thread).unsent = some request) ∨
    ∀ pid, s.Arrives request pid

section Steps

variable {s next : State n Thread Tag} {pid : Fin n} {thread : Thread} {pc : Pc Tag}
  {tuner : Tuner Thread Tag} {request : Msg Tag}

theorem pcs_goto [DecidableEq Thread] (tuner : Tuner Thread Tag) (thread other : Thread)
    (pc : Pc Tag) :
    (tuner.goto thread pc).pcs other = if other = thread then pc else tuner.pcs other := by
  by_cases same : other = thread <;> simp [Tuner.goto, same]

structure Moves [DecidableEq Thread] (s next : State n Thread Tag) (pid : Fin n) (thread : Thread)
    (pc : Pc Tag) (tuner : Tuner Thread Tag) : Prop where
  tuners : next.tuner = Function.update s.tuner pid tuner
  pcs : tuner.pcs = ((s.tuner pid).goto thread pc).pcs
  called : ∀ request ∈ s.called, request ∈ next.called

section Frames

variable [DecidableEq Thread] (moves : Moves s next pid thread pc tuner)

include moves

theorem Moves.here : next.tuner pid = tuner := by
  rw [moves.tuners, Function.update_self]

theorem Moves.elsewhere {other : Fin n} (different : other ≠ pid) :
    next.tuner other = s.tuner other := by
  rw [moves.tuners, Function.update_of_ne different]

theorem Moves.isPc : (next.tuner pid).pcs thread = pc := by
  rw [moves.here, moves.pcs, pcs_goto, if_pos rfl]

theorem Moves.others {other : Thread} (different : other ≠ thread) :
    (next.tuner pid).pcs other = (s.tuner pid).pcs other := by
  rw [moves.here, moves.pcs, pcs_goto, if_neg different]

theorem Backed.change (backed : Backed s)
    (stored : ∀ request, tuner.Stored request →
      (s.tuner pid).Stored request ∨ request ∈ next.called)
    (sent : ∀ message ∈ next.inFlight, message ∈ s.inFlight ∨ message.2 ∈ next.called)
    (own : ∀ request, pc.unsent = some request ∨ pc.stores = some request →
      request ∈ next.called) : Backed next := by
  refine ⟨fun other request isStored => ?_, fun message isSent => ?_,
    fun other thread' request isRequest => ?_⟩
  · by_cases same : other = pid
    · subst same
      rw [moves.here] at isStored
      exact (stored request isStored).elim
        (fun before => moves.called _ (backed.stored other request before)) id
    · rw [moves.elsewhere same] at isStored
      exact moves.called _ (backed.stored other request isStored)
  · exact (sent message isSent).elim (fun before => moves.called _ (backed.sent message before)) id
  · by_cases same : other = pid
    · subst same
      by_cases isThread : thread' = thread
      · subst isThread
        rw [moves.isPc] at isRequest
        exact own request isRequest
      · rw [moves.others isThread] at isRequest
        exact moves.called _ (backed.pcs other thread' request isRequest)
    · rw [moves.elsewhere same] at isRequest
      exact moves.called _ (backed.pcs other thread' request isRequest)

theorem State.Arrives.change {other : Fin n} (arrives : s.Arrives request other)
    (grows : (s.tuner pid).Stored request → tuner.Stored request)
    (received : ∀ other, (other, request) ∈ s.inFlight →
      (other, request) ∈ next.inFlight ∨ (other = pid ∧ pc.stores = some request))
    (stores : ((s.tuner pid).pcs thread).stores = some request →
      pc.stores = some request ∨ tuner.Stored request) : next.Arrives request other := by
  rcases arrives with isStored | isSent | ⟨thread', isStore⟩
  · by_cases same : other = pid
    · subst same
      exact .inl (by rw [moves.here]; exact grows isStored)
    · exact .inl (by rw [moves.elsewhere same]; exact isStored)
  · rcases received other isSent with still | ⟨rfl, isStore⟩
    · exact .inr (.inl still)
    · exact .inr (.inr ⟨thread, by rw [moves.isPc]; exact isStore⟩)
  · by_cases same : other = pid
    · subst same
      by_cases isThread : thread' = thread
      · subst isThread
        rcases stores isStore with later | done
        · exact .inr (.inr ⟨thread', by rw [moves.isPc]; exact later⟩)
        · exact .inl (by rw [moves.here]; exact done)
      · exact .inr (.inr ⟨thread', by rw [moves.others isThread]; exact isStore⟩)
    · exact .inr (.inr ⟨thread', by rw [moves.elsewhere same]; exact isStore⟩)

theorem State.Covers.change (covers : s.Covers request)
    (grows : (s.tuner pid).Stored request → tuner.Stored request)
    (received : ∀ other, (other, request) ∈ s.inFlight →
      (other, request) ∈ next.inFlight ∨ (other = pid ∧ pc.stores = some request))
    (stores : ((s.tuner pid).pcs thread).stores = some request →
      pc.stores = some request ∨ tuner.Stored request)
    (unsent : ((s.tuner pid).pcs thread).unsent = some request →
      pc.unsent = some request ∨
        (∀ other, other ≠ pid → (other, request) ∈ next.inFlight) ∧ pc.stores = some request) :
    next.Covers request := by
  rcases covers with ⟨other, thread', isUnsent⟩ | arrives
  · by_cases same : other = pid ∧ thread' = thread
    · obtain ⟨rfl, rfl⟩ := same
      rcases unsent isUnsent with still | ⟨sent, isStore⟩
      · exact .inl ⟨other, thread', by rw [moves.isPc]; exact still⟩
      · refine .inr fun third => ?_
        by_cases isPid : third = other
        · subst isPid
          exact .inr (.inr ⟨thread', by rw [moves.isPc]; exact isStore⟩)
        · exact .inr (.inl (sent third isPid))
    · refine .inl ⟨other, thread', ?_⟩
      by_cases isPid : other = pid
      · subst isPid
        rw [moves.others fun isThread => same ⟨rfl, isThread⟩]
        exact isUnsent
      · rw [moves.elsewhere isPid]
        exact isUnsent
  · exact .inr fun other => (arrives other).change moves grows received stores

end Frames

theorem stores_begin (n : Nat) (message : Msg Tag) :
    (begin n true message).stores = some message := by
  cases message <;> rfl

theorem unsent_begin (n : Nat) (request : Msg Tag) :
    (begin n false request).unsent = some request ∨
      n ≤ 1 ∧ (begin n false request).stores = some request := by
  cases request with
  | single tag => exact .inl rfl
  | all =>
      by_cases others : 1 < n
      · exact .inl (by simp [begin, others, Pc.unsent])
      · exact .inr ⟨Nat.le_of_not_lt others, by simp [begin, others, Pc.stores]⟩

theorem request_of_begin {fromMsg : Bool} {request other : Msg Tag}
    (isRequest : (begin n fromMsg request).unsent = some other ∨
      (begin n fromMsg request).stores = some other) : other = request := by
  cases request with
  | single tag => cases fromMsg <;> simpa [begin, Pc.unsent, Pc.stores, eq_comm] using isRequest
  | all =>
      cases fromMsg with
      | true => simpa [begin, Pc.unsent, Pc.stores, eq_comm] using isRequest
      | false =>
          by_cases others : 1 < n <;>
            simpa [begin, others, Pc.unsent, Pc.stores, eq_comm] using isRequest

theorem mem_bcast {message : Msg Tag} {pair : Fin n × Msg Tag} :
    pair ∈ bcast pid message ↔ pair.1 ≠ pid ∧ pair.2 = message := by
  obtain ⟨other, sent⟩ := pair
  simp [bcast, eq_comm]

structure Inv (s : State n Thread Tag) : Prop where
  backed : Backed s
  covered : ∀ request ∈ s.called, request = .all ∨ .all ∉ s.called → s.Covers request

theorem inv_start : Inv (start n Thread Tag) := by
  refine ⟨⟨fun pid request isStored => ?_, fun _ isSent => absurd isSent List.not_mem_nil,
    fun _ _ request isRequest => ?_⟩, fun _ isCalled => absurd isCalled List.not_mem_nil⟩
  · cases request with
    | single tag => exact absurd isStored (Finset.notMem_empty tag)
    | all => cases isStored
  · rcases isRequest with isRequest | isRequest <;> cases isRequest

section Preserved

variable [DecidableEq Thread]

theorem Inv.moves {before pc : Pc Tag} {tuner : Tuner Thread Tag} {sent : List (Fin n × Msg Tag)}
    (inv : Inv s) (isPc : (s.tuner pid).pcs thread = before)
    (isPcs : tuner.pcs = ((s.tuner pid).goto thread pc).pcs)
    (stored : ∀ request, tuner.Stored request →
      (s.tuner pid).Stored request ∨ before.stores = some request)
    (isSent : ∀ message ∈ sent, before.unsent = some message.2)
    (own : ∀ request, pc.unsent = some request ∨ pc.stores = some request →
      before.unsent = some request ∨ before.stores = some request)
    (grows : ∀ request, (s.tuner pid).Stored request → tuner.Stored request)
    (stores : ∀ request, request = .all ∨ .all ∉ s.called →
      before.stores = some request → pc.stores = some request ∨ tuner.Stored request)
    (unsent : ∀ request, request = .all ∨ .all ∉ s.called →
      before.unsent = some request → pc.unsent = some request ∨
        (∀ other, other ≠ pid → (other, request) ∈ sent) ∧ pc.stores = some request) :
    Inv { s.setTuner pid tuner with inFlight := s.inFlight ++ sent } := by
  have moves : Moves s { s.setTuner pid tuner with inFlight := s.inFlight ++ sent } pid thread pc
      tuner := ⟨rfl, isPcs, fun _ isCalled => isCalled⟩
  have called := inv.backed.pcs pid thread
  rw [isPc] at called
  refine ⟨inv.backed.change moves (fun request isStored => ?_) (fun message isMessage => ?_)
    fun request isRequest => called request (own request isRequest),
    fun request isCalled condition => ?_⟩
  · exact (stored request isStored).imp_right fun isStore => called request (.inr isStore)
  · exact (List.mem_append.mp isMessage).imp_right fun new =>
      called message.2 (.inl (isSent message new))
  · refine (inv.covered request isCalled condition).change moves (grows request)
      (fun _ before => .inl (List.mem_append_left _ before)) ?_ ?_
    · rw [isPc]
      exact stores request condition
    · rw [isPc]
      intro isUnsent
      exact (unsent request condition isUnsent).imp_right
        (And.imp_left fun others other different =>
          List.mem_append_right _ (others other different))

theorem Tuner.stored_goto {tuner : Tuner Thread Tag} :
    (tuner.goto thread pc).Stored request ↔ tuner.Stored request := by
  cases request <;> rfl

variable [DecidableEq Tag]

theorem Inv.call (inv : Inv s) (isIdle : (s.tuner pid).pcs thread = .idle) (request : Msg Tag) :
    Inv { s.setTuner pid ((s.tuner pid).goto thread (begin n false request)) with
      called := request :: s.called } := by
  have moves : Moves s { s.setTuner pid ((s.tuner pid).goto thread (begin n false request)) with
      called := request :: s.called } pid thread (begin n false request)
      ((s.tuner pid).goto thread (begin n false request)) :=
    ⟨rfl, rfl, fun _ isCalled => List.mem_cons_of_mem _ isCalled⟩
  refine ⟨inv.backed.change moves (fun _ isStored => .inl isStored) (fun _ isSent => .inl isSent)
    fun other isRequest => ?_, fun other isCalled condition => ?_⟩
  · rw [request_of_begin isRequest]
    exact List.mem_cons_self
  · by_cases isNew : other = request
    · subst isNew
      rcases unsent_begin n other with isUnsent | ⟨single, isStore⟩
      · exact .inl ⟨pid, thread, by rw [moves.isPc]; exact isUnsent⟩
      · refine .inr fun third => .inr (.inr ⟨thread, ?_⟩)
        have isPid : third = pid := Fin.ext (by omega)
        rw [isPid, moves.isPc]
        exact isStore
    · have before := (List.mem_cons.mp isCalled).resolve_left isNew
      have condition : other = .all ∨ .all ∉ s.called :=
        condition.imp_right fun notAll isAll => notAll (List.mem_cons_of_mem _ isAll)
      refine (inv.covered other before condition).change moves id (fun _ isSent => .inl isSent) ?_ ?_
        <;> rw [isIdle] <;> exact nofun

theorem Inv.receive (inv : Inv s) (isIdle : (s.tuner pid).pcs thread = .idle) {message : Msg Tag}
    (isSent : (pid, message) ∈ s.inFlight) :
    Inv { s.setTuner pid ((s.tuner pid).goto thread (begin n true message)) with
      inFlight := s.inFlight.erase (pid, message) } := by
  have moves : Moves s { s.setTuner pid ((s.tuner pid).goto thread (begin n true message)) with
      inFlight := s.inFlight.erase (pid, message) } pid thread (begin n true message)
      ((s.tuner pid).goto thread (begin n true message)) :=
    ⟨rfl, rfl, fun _ isCalled => isCalled⟩
  refine ⟨inv.backed.change moves (fun _ isStored => .inl isStored)
    (fun _ isSent => .inl (List.mem_of_mem_erase isSent)) fun other isRequest => ?_,
    fun other isCalled condition => ?_⟩
  · rw [request_of_begin isRequest]
    exact inv.backed.sent _ isSent
  · refine (inv.covered other isCalled condition).change moves id (fun third isOther => ?_) ?_ ?_
    · by_cases same : (third, other) = (pid, message)
      · cases same
        exact .inr ⟨rfl, stores_begin n message⟩
      · exact .inl ((List.mem_erase_of_ne same).mpr isOther)
    · rw [isIdle]
      exact nofun
    · rw [isIdle]
      exact nofun

theorem Inv.run (inv : Inv s) {result : Tuner Thread Tag × List (Fin n × Msg Tag)}
    (isAdvance : advance pid (s.tuner pid) thread = some result) :
    Inv { s.setTuner pid result.1 with inFlight := s.inFlight ++ result.2 } := by
  cases isPc : (s.tuner pid).pcs thread with
  | idle => simp [advance, isPc] at isAdvance
  | cancelTest tag fromMsg =>
      by_cases isAll : (s.tuner pid).cancelAll
      · -- The tag is dropped, but `cancel_all` has been called.
        simp only [advance, isPc, isAll, if_true, Option.some.injEq] at isAdvance
        subst isAdvance
        have dropped : ∀ request, request = Msg.all ∨ .all ∉ s.called →
            (Pc.cancelTest tag fromMsg).unsent ≠ some request ∧
              (Pc.cancelTest tag fromMsg).stores ≠ some request := by
          intro request condition
          rcases condition with rfl | notAll
          · cases fromMsg <;> exact ⟨nofun, nofun⟩
          · exact absurd (inv.backed.stored pid .all isAll) notAll
        refine inv.moves isPc rfl (fun _ => .inl ∘ Tuner.stored_goto.mp) nofun nofun
          (fun _ => Tuner.stored_goto.mpr) (fun request condition isStore => ?_)
          fun request condition isUnsent => ?_
        · exact absurd isStore (dropped request condition).2
        · exact absurd isUnsent (dropped request condition).1
      · by_cases others : fromMsg = false ∧ 1 < n
        · obtain ⟨rfl, several⟩ := others
          simp only [advance, isPc, isAll, Bool.not_false, Bool.true_and, decide_eq_true several,
            Bool.false_eq_true, if_true, if_false, Option.some.injEq] at isAdvance
          subst isAdvance
          exact inv.moves isPc rfl (fun _ => .inl ∘ Tuner.stored_goto.mp) nofun
            (fun _ => id) (fun _ => Tuner.stored_goto.mpr) (fun _ _ => nofun)
            fun _ _ => .inl
        · have isStep : (!fromMsg && decide (1 < n)) = false := by
            simpa using others
          simp only [advance, isPc, isAll, isStep, Bool.false_eq_true, if_false,
            Option.some.injEq] at isAdvance
          subst isAdvance
          refine inv.moves isPc rfl (fun _ => .inl ∘ Tuner.stored_goto.mp) nofun
            (fun request isRequest => ?_) (fun _ => Tuner.stored_goto.mpr)
            (fun request _ isStore => .inl ?_) fun request _ isUnsent => .inr ⟨fun other different =>
              ?_, ?_⟩
          · cases fromMsg
            · exact .inl (isRequest.resolve_left nofun)
            · exact isRequest.symm.imp_right nofun |>.symm
          · cases fromMsg
            · cases isStore
            · exact isStore
          · cases fromMsg
            · have alone : ¬ 1 < n := fun several => others ⟨rfl, several⟩
              exact absurd (Fin.ext (by omega)) different
            · cases isUnsent
          · cases fromMsg
            · exact isUnsent
            · cases isUnsent
  | cancelBcast tag =>
      simp only [advance, isPc, Option.some.injEq] at isAdvance
      subst isAdvance
      refine inv.moves isPc rfl (fun _ => .inl ∘ Tuner.stored_goto.mp)
        (fun message isMessage => ?_) (fun request isRequest => .inl ?_)
        (fun _ => Tuner.stored_goto.mpr) (fun _ _ => nofun)
        fun request _ isUnsent => .inr ⟨fun other different => ?_, isUnsent⟩
      · rw [(mem_bcast.mp isMessage).2]
        rfl
      · exact isRequest.resolve_left nofun
      · exact mem_bcast.mpr ⟨different, (Option.some.inj isUnsent).symm⟩
  | cancelInsert tag =>
      simp only [advance, isPc, Option.some.injEq] at isAdvance
      subst isAdvance
      refine inv.moves isPc rfl (fun request isStored => ?_) nofun (fun _ => ?_)
        (fun request isStored => ?_) (fun request _ isStore => .inr ?_) (fun _ _ => nofun)
      · cases request with
        | single other =>
            rcases Finset.mem_insert.mp isStored with rfl | before
            · exact .inr rfl
            · exact .inl before
        | all => exact .inl isStored
      · exact fun isRequest => isRequest.elim nofun nofun
      · cases request with
        | single other => exact Finset.mem_insert_of_mem isStored
        | all => exact isStored
      · cases isStore
        exact Finset.mem_insert_self tag _
  | allBcast =>
      simp only [advance, isPc, Option.some.injEq] at isAdvance
      subst isAdvance
      refine inv.moves isPc rfl (fun _ => .inl ∘ Tuner.stored_goto.mp)
        (fun message isMessage => ?_) (fun request isRequest => .inl ?_)
        (fun _ => Tuner.stored_goto.mpr) (fun _ _ => nofun)
        fun request _ isUnsent => .inr ⟨fun other different => ?_, isUnsent⟩
      · rw [(mem_bcast.mp isMessage).2]
        rfl
      · exact isRequest.resolve_left nofun
      · exact mem_bcast.mpr ⟨different, (Option.some.inj isUnsent).symm⟩
  | allStore =>
      simp only [advance, isPc, Option.some.injEq] at isAdvance
      subst isAdvance
      refine inv.moves isPc rfl (fun request isStored => ?_) nofun (fun _ => ?_)
        (fun request isStored => ?_) (fun request _ isStore => .inr ?_) (fun _ _ => nofun)
      · cases request with
        | single tag => exact .inl isStored
        | all => exact .inr rfl
      · exact fun isRequest => isRequest.elim nofun nofun
      · cases request with
        | single tag => exact isStored
        | all => rfl
      · cases isStore
        rfl

theorem Inv.step {action : Action n Thread Tag} (inv : Inv s) (isStep : step s action = some next) :
    Inv next := by
  cases action with
  | call pid thread request =>
      obtain ⟨isIdle, isNext⟩ := Option.ite_none_right_eq_some.mp isStep
      exact Option.some.inj isNext ▸ inv.call isIdle request
  | receive pid thread message =>
      obtain ⟨⟨isIdle, isSent⟩, isNext⟩ := Option.ite_none_right_eq_some.mp isStep
      exact Option.some.inj isNext ▸ inv.receive isIdle isSent
  | run pid thread =>
      obtain ⟨result, isAdvance, rfl⟩ := Option.map_eq_some_iff.mp isStep
      exact inv.run isAdvance

theorem inv_of_reachable (reachable : Reachable (system n Thread Tag) s) : Inv s :=
  Reached.invariant Inv (fun _ isStart => isStart ▸ inv_start)
    (fun _ _ _ _ inv _ isStep => inv.step isStep) reachable

omit [DecidableEq Thread] [DecidableEq Tag] in
theorem Inv.stored_of_quiet (inv : Inv s) (quiet : s.Quiet) (isCalled : request ∈ s.called)
    (condition : request = .all ∨ .all ∉ s.called) (pid : Fin n) :
    (s.tuner pid).Stored request := by
  rcases inv.covered request isCalled condition with ⟨other, thread, isUnsent⟩ | arrives
  · rw [quiet.2 other thread] at isUnsent
    cases isUnsent
  · rcases arrives pid with isStored | isSent | ⟨thread, isStore⟩
    · exact isStored
    · rw [quiet.1] at isSent
      cases isSent
    · rw [quiet.2 pid thread] at isStore
      cases isStore

omit [DecidableEq Thread] in
theorem Inv.wasCanceled (inv : Inv s) (quiet : s.Quiet) (pid : Fin n) (tag : Tag) :
    (s.tuner pid).wasCanceled tag = true ↔ .all ∈ s.called ∨ .single tag ∈ s.called := by
  simp only [Tuner.wasCanceled, Bool.or_eq_true, decide_eq_true_eq]
  constructor
  · rintro (isAll | isTag)
    · exact .inl (inv.backed.stored pid .all isAll)
    · exact .inr (inv.backed.stored pid (.single tag) isTag)
  · intro isCalled
    by_cases isAll : .all ∈ s.called
    · exact .inl (inv.stored_of_quiet quiet isAll (.inl rfl) pid)
    · exact .inr (inv.stored_of_quiet quiet (isCalled.resolve_left isAll) (.inr isAll) pid)

end Preserved

end Steps

/-- Without messages on their way, all processes give the same answers. -/
theorem cancel_converges [DecidableEq Thread] [DecidableEq Tag] {s : State n Thread Tag}
    (reachable : Reachable (system n Thread Tag) s) (quiet : s.Quiet) (tag : Tag) :
    (∀ p q, (s.tuner p).wasCanceled tag = (s.tuner q).wasCanceled tag) ∧
      ∀ p, (s.tuner p).wasCanceled tag = true ↔ .all ∈ s.called ∨ .single tag ∈ s.called := by
  have inv := inv_of_reachable reachable
  refine ⟨fun p q => Bool.eq_iff_iff.mpr ?_, fun p => inv.wasCanceled quiet p tag⟩
  exact (inv.wasCanceled quiet p tag).trans (inv.wasCanceled quiet q tag).symm

/-- Process 0 cancels tag 7 after process 1 has canceled all, and before it knows. -/
def cancelBoth : List (Action 2 Unit Nat) :=
  [.call 1 () .all, .run 1 (), .run 1 (), .call 0 () (.single 7), .run 0 (), .run 0 (), .run 0 (),
    .receive 0 () .all, .run 0 (), .receive 1 () (.single 7), .run 1 ()]

/-- The sets of the two processes differ, their answers do not. -/
theorem cancel_converges_two : ∃ s : State 2 Unit Nat, Reachable (system 2 Unit Nat) s ∧ s.Quiet ∧
    (s.tuner 0).canceledTags ≠ (s.tuner 1).canceledTags ∧
    ∀ tag, ((∀ p q, (s.tuner p).wasCanceled tag = (s.tuner q).wasCanceled tag) ∧
      ∀ p, (s.tuner p).wasCanceled tag = true ↔ .all ∈ s.called ∨ .single tag ∈ s.called) := by
  have shown : ((system 2 Unit Nat).run (fun _ _ => True) (start _ _ _) cancelBoth).map
      (fun s => (s.inFlight, (s.tuner 0).pcs (), (s.tuner 1).pcs (), (s.tuner 0).canceledTags,
        (s.tuner 1).canceledTags)) = some ([], .idle, .idle, {7}, ∅) := by rfl
  obtain ⟨s, computed, after⟩ := Option.map_eq_some_iff.mp shown
  simp only [Prod.mk.injEq] at after
  obtain ⟨nothing, idle, alsoIdle, here, there⟩ := after
  have reached : Reachable (system 2 Unit Nat) s := Reached.run (.initial rfl) cancelBoth computed
  have quiet : s.Quiet := ⟨nothing, fun pid _ => by fin_cases pid; exacts [idle, alsoIdle]⟩
  refine ⟨s, reached, quiet, ?_, cancel_converges reached quiet⟩
  rw [here, there]
  decide

end CnC.Scheduler.Cancel
