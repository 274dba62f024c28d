import CnC.Library.Combinable
import CnC.Library.Network
import CnC.Library.Transition

/-!
# A reduction on one process

The callbacks of the items and of the count run in any number of threads.  Every item is
reduced into a slot of its thread and counted, and the count is stored.  After that each
callback compares the number of items with the count, and if these are equal it puts the
combined value under a lock, unless this has been done.

Every step of a thread is one atomic operation of the source: a load, a store, an increment, an
access to the slot of the thread, an operation of the lock, or the put of the value.
-/

namespace CnC.Reduce.Local

open Transition

variable {w : Nat} {Thread α : Type}

/-- `M1`, where `CType` has `w` bits. -/
def m1 (w : Nat) : BitVec w := -1#w

/-- The next operation of a thread, with the values which it has loaded.  The operations are
those of `on_item_put::on_put` with `add_value`, of `on_count_put::on_put`, and of
`try_put_value`, whose two loads come in any order. -/
inductive Pc (w : Nat) (α : Type) where
  | idle
  | addLocal (val : α)
  | addStore (val : α) (exists_ : Bool)
  | itemCount
  | countStore (cnt : BitVec w)
  | flagLoad
  | flagStore (nreduced : BitVec w)
  | test (nreduced n : Option (BitVec w))
  | putLock
  | putStatus
  | putOut
  | putDone
  | putUnlock

/-- The `red_tls` of the reduction, the threads, and the output collection.  `done` tells that
the status is DONE.  No operation reads `items`, the items which have been put, `added`, the
number of those which are in a slot, or `countPut`. -/
structure State (w : Nat) (Thread α : Type) where
  slots : Combinable Thread α
  nreduced : BitVec w
  n : BitVec w
  locked : Bool
  done : Bool
  pcs : Thread → Pc w α
  out : List α
  items : List α
  added : Nat
  countPut : Bool

/-- `on_count_put::on_put` begins. -/
def Pc.ofCount (cnt : BitVec w) : Pc w α :=
  if cnt ≠ m1 w then .countStore cnt else .flagLoad

inductive Action (Thread α : Type) where
  | putItem (thread : Thread) (val : α)
  | putCount (thread : Thread)
  | loadReduced (thread : Thread)
  | loadN (thread : Thread)
  | run (thread : Thread)

namespace Action

def thread : Action Thread α → Thread
  | putItem thread _ | putCount thread | loadReduced thread | loadN thread | run thread => thread

/-- The action belongs to a callback which is running. -/
def isOperation : Action Thread α → Bool
  | putItem _ _ | putCount _ => false
  | loadReduced _ | loadN _ | run _ => true

end Action

section Operations

variable [DecidableEq Thread]

def State.goto (s : State w Thread α) (thread : Thread) (pc : Pc w α) : State w Thread α :=
  { s with pcs := Function.update s.pcs thread pc }

variable [Mul α] [One α] [Inhabited α]

/-- The operations of `add_value`, `on_count_put::on_put` and `try_put_value` apart from its two
loads. -/
def advance (s : State w Thread α) (thread : Thread) : Option (State w Thread α) :=
  match s.pcs thread with
  | .idle => none
  | .addLocal val =>
      some { s.goto thread (.addStore val (decide (thread ∈ s.slots.keys))) with
        slots := s.slots.make thread }
  | .addStore val exists_ =>
      (s.slots.get thread).map fun rval =>
        { s.goto thread .itemCount with
          slots := s.slots.set thread ((if exists_ then rval else 1) * val)
          added := s.added + 1 }
  | .itemCount => some { s.goto thread (.test none none) with nreduced := s.nreduced + 1#w }
  | .countStore cnt => some { s.goto thread (.test none none) with n := cnt }
  | .flagLoad => some (s.goto thread (.flagStore s.nreduced))
  | .flagStore nreduced => some { s.goto thread (.test none none) with n := nreduced }
  | .test (some nreduced) (some n) =>
        some (s.goto thread (if nreduced = n then .putLock else .idle))
  | .test _ _ => none
  | .putLock => if s.locked then none else some { s.goto thread .putStatus with locked := true }
  | .putStatus => some (s.goto thread (if s.done then .putUnlock else .putOut))
  | .putOut => some { s.goto thread .putDone with out := s.out ++ [s.slots.combine] }
  | .putDone => some { s.goto thread .putUnlock with done := true }
  | .putUnlock => some { s.goto thread .idle with locked := false }

/-- The count `cnt` is put. -/
def step (cnt : BitVec w) (s : State w Thread α) :
    Action Thread α → Option (State w Thread α)
  | .putItem thread val =>
      match s.pcs thread with
      | .idle => some { s.goto thread (.addLocal val) with items := s.items ++ [val] }
      | _ => none
  | .putCount thread =>
      match s.pcs thread with
      | .idle =>
          some { s.goto thread (.ofCount cnt) with countPut := true }
      | _ => none
  | .loadReduced thread =>
      match s.pcs thread with
      | .test none n => some (s.goto thread (.test (some s.nreduced) n))
      | _ => none
  | .loadN thread =>
      match s.pcs thread with
      | .test nreduced none => some (s.goto thread (.test nreduced (some s.n)))
      | _ => none
  | .run thread => advance s thread

def start (w : Nat) (Thread α : Type) : State w Thread α where
  slots := []
  nreduced := 0
  n := m1 w
  locked := false
  done := false
  pcs _ := .idle
  out := []
  items := []
  added := 0
  countPut := false

def system (cnt : BitVec w) : System (State w Thread α) (Action Thread α) where
  Initial s := s = start w Thread α
  step := step cnt

end Operations

/-- The count which is put is `c`, or -1 with the flag. -/
def count (w c : Nat) (flag : Bool) : BitVec w :=
  if flag then m1 w else BitVec.ofNat w c

/-- `CType` has more values than there are items, and -1 is none of their numbers, unless it is
the last one and all items are put before the count. -/
def InRange (w c : Nat) (flag : Bool) : Prop :=
  c < 2 ^ w - 1 ∨ flag = true ∧ c = 2 ^ w - 1

/-- All callbacks have returned. -/
def State.Idle (s : State w Thread α) : Prop :=
  ∀ thread, s.pcs thread = .idle

/-- No more than `c` items are selected and the count is put once.  The count -1 is put after
all items. -/
def Puts (c : Nat) (flag : Bool) (s : State w Thread α) : Action Thread α → Prop
  | .putItem _ _ => s.items.length < c
  | .putCount _ => s.countPut = false ∧ (flag = true → s.items.length = c ∧ s.Idle)
  | _ => True

instance : DecidablePred fun pc : Pc w α => pc = .idle
  | .idle => .isTrue rfl
  | .addLocal _ | .addStore _ _ | .itemCount | .countStore _ | .flagLoad | .flagStore _ | .test _ _
  | .putLock | .putStatus | .putOut | .putDone | .putUnlock => .isFalse nofun

instance [Fintype Thread] (c : Nat) (flag : Bool) (s : State w Thread α) :
    DecidablePred (Puts c flag s)
  | .putItem _ _ => inferInstanceAs (Decidable (_ < _))
  | .putCount _ =>
      have : Decidable s.Idle := inferInstanceAs (Decidable (∀ thread, s.pcs thread = .idle))
      inferInstanceAs (Decidable (_ ∧ (_ → _)))
  | .loadReduced _ | .loadN _ | .run _ => .isTrue trivial

namespace Pc

def pending [One α] : Pc w α → α
  | addLocal val | addStore val _ => val
  | _ => 1

/-- The slot of the thread holds a default value. -/
def fresh : Pc w α → Bool
  | addStore _ exists_ => !exists_
  | _ => false

def adding : Pc w α → Int
  | addLocal _ | addStore _ _ => 1
  | _ => 0

def uncounted : Pc w α → Int
  | addLocal _ | addStore _ _ | itemCount => 1
  | _ => 0

def holds : Pc w α → Bool
  | putStatus | putOut | putDone | putUnlock => true
  | _ => false

/-- A bound on the operations which are left. -/
def work : Pc w α → Nat
  | idle => 0
  | addLocal _ => 11
  | addStore _ _ => 10
  | itemCount => 9
  | countStore _ => 9
  | flagLoad => 10
  | flagStore _ => 9
  | test none none => 8
  | test none (some _) | test (some _) none => 7
  | test (some _) (some _) => 6
  | putLock => 5
  | putStatus => 4
  | putOut => 3
  | putDone => 2
  | putUnlock => 1

end Pc

def State.work [Fintype Thread] (s : State w Thread α) : Int :=
  ∑ thread, ((s.pcs thread).work : Int)

/-- What is to hold in every state of a run with `c` selected items. -/
structure Holds [DecidableEq Thread] [Fintype Thread] [CommMonoid α] [Inhabited α] (c : Nat)
    (flag : Bool) (s : State w Thread α) : Prop where
  once : s.out.length ≤ 1
  notBefore : s.out ≠ [] → s.added = c
  value : ∀ value ∈ s.out, value = s.items.prod
  put : s.items.length = c → s.countPut = true → s.Idle → s.out ≠ []
  /-- The callbacks return: one of them can go on, and every operation leaves less work. -/
  progress : ¬ s.Idle → ∃ action : Action Thread α, action.isOperation = true ∧
    (step (count w c flag) s action).isSome
  decreases : ∀ (action : Action Thread α) next, action.isOperation = true →
    step (count w c flag) s action = some next → next.work < s.work

section Steps

variable [DecidableEq Thread] {c : Nat} {flag : Bool} {s next : State w Thread α}
  {thread other : Thread}

/-- The operations which change nothing but where the thread is. -/
inductive Plain (s : State w Thread α) : Pc w α → Pc w α → Prop
  | loadReduced (n) : Plain s (.test none n) (.test (some s.nreduced) n)
  | loadN (nreduced) : Plain s (.test nreduced none) (.test nreduced (some s.n))
  | flagLoad : Plain s .flagLoad (.flagStore s.nreduced)
  | equal (n) : Plain s (.test (some n) (some n)) .putLock
  | different {nreduced n} : nreduced ≠ n → Plain s (.test (some nreduced) (some n)) .idle
  | finished : s.done = true → Plain s .putStatus .putUnlock
  | unfinished : s.done = false → Plain s .putStatus .putOut

/-- What an action can do. -/
inductive Next [Mul α] [One α] [Inhabited α] (c : Nat) (flag : Bool) (s : State w Thread α)
    (thread : Thread) : State w Thread α → Prop
  | putItem (val) : s.pcs thread = .idle → s.items.length < c →
      Next c flag s thread { s.goto thread (.addLocal val) with items := s.items ++ [val] }
  | putCount : s.pcs thread = .idle → s.countPut = false →
      (flag = true → s.items.length = c ∧ s.Idle) →
      Next c flag s thread
        { s.goto thread (.ofCount (count w c flag)) with countPut := true }
  | addLocal {val} : s.pcs thread = .addLocal val →
      Next c flag s thread
        { s.goto thread (.addStore val (decide (thread ∈ s.slots.keys))) with
          slots := s.slots.make thread }
  | addStore {val exists_ rval} : s.pcs thread = .addStore val exists_ →
      s.slots.get thread = some rval →
      Next c flag s thread
        { s.goto thread .itemCount with
          slots := s.slots.set thread ((if exists_ then rval else 1) * val)
          added := s.added + 1 }
  | itemCount : s.pcs thread = .itemCount →
      Next c flag s thread
        { s.goto thread (.test none none) with nreduced := s.nreduced + 1#w }
  | store {n} : s.pcs thread = .countStore n ∨ s.pcs thread = .flagStore n →
      Next c flag s thread { s.goto thread (.test none none) with n := n }
  | plain {pc} : Plain s (s.pcs thread) pc → Next c flag s thread (s.goto thread pc)
  | putLock : s.pcs thread = .putLock → s.locked = false →
      Next c flag s thread { s.goto thread .putStatus with locked := true }
  | putOut : s.pcs thread = .putOut →
      Next c flag s thread { s.goto thread .putDone with out := s.out ++ [s.slots.combine] }
  | putDone : s.pcs thread = .putDone →
      Next c flag s thread { s.goto thread .putUnlock with done := true }
  | putUnlock : s.pcs thread = .putUnlock →
      Next c flag s thread { s.goto thread .idle with locked := false }

section Inversion

variable [Mul α] [One α] [Inhabited α]

theorem next_of_advance (advanced : advance s thread = some next) :
    Next c flag s thread next := by
  unfold advance at advanced
  cases isPc : s.pcs thread with
  | idle => simp [isPc] at advanced
  | addLocal val =>
      simp only [isPc, Option.some.injEq] at advanced
      exact advanced ▸ .addLocal isPc
  | addStore val exists_ =>
      simp only [isPc] at advanced
      obtain ⟨rval, found, rfl⟩ := Option.map_eq_some_iff.mp advanced
      exact .addStore isPc found
  | itemCount =>
      simp only [isPc, Option.some.injEq] at advanced
      exact advanced ▸ .itemCount isPc
  | countStore cnt =>
      simp only [isPc, Option.some.injEq] at advanced
      exact advanced ▸ .store (.inl isPc)
  | flagLoad =>
      simp only [isPc, Option.some.injEq] at advanced
      exact advanced ▸ .plain (isPc ▸ .flagLoad)
  | flagStore nreduced =>
      simp only [isPc, Option.some.injEq] at advanced
      exact advanced ▸ .store (.inr isPc)
  | test nreduced n =>
      cases nreduced with
      | none => simp [isPc] at advanced
      | some nreduced =>
          cases n with
          | none => simp [isPc] at advanced
          | some n =>
              simp only [isPc, Option.some.injEq] at advanced
              subst advanced
              by_cases same : nreduced = n
              · rw [if_pos same]
                exact .plain (isPc ▸ same ▸ .equal nreduced)
              · rw [if_neg same]
                exact .plain (isPc ▸ .different same)
  | putLock =>
      simp only [isPc] at advanced
      split at advanced
      · cases advanced
      · rename_i unlocked
        cases advanced
        exact .putLock isPc (by simpa using unlocked)
  | putStatus =>
      simp only [isPc, Option.some.injEq] at advanced
      subst advanced
      cases done : s.done with
      | true => exact .plain (isPc ▸ .finished done)
      | false => exact .plain (isPc ▸ .unfinished done)
  | putOut =>
      simp only [isPc, Option.some.injEq] at advanced
      exact advanced ▸ .putOut isPc
  | putDone =>
      simp only [isPc, Option.some.injEq] at advanced
      exact advanced ▸ .putDone isPc
  | putUnlock =>
      simp only [isPc, Option.some.injEq] at advanced
      exact advanced ▸ .putUnlock isPc

theorem next_of_step {action : Action Thread α} (allowed : Puts c flag s action)
    (stepped : step (count w c flag) s action = some next) : Next c flag s action.thread next := by
  cases action with
  | putItem thread val =>
      simp only [step] at stepped
      split at stepped
      · rename_i isPc
        cases stepped
        exact .putItem val isPc allowed
      · cases stepped
  | putCount thread =>
      simp only [step] at stepped
      split at stepped
      · rename_i isPc
        cases stepped
        exact .putCount isPc allowed.1 allowed.2
      · cases stepped
  | loadReduced thread =>
      simp only [step] at stepped
      split at stepped
      · rename_i n isPc
        cases stepped
        exact .plain (isPc ▸ .loadReduced n)
      · cases stepped
  | loadN thread =>
      simp only [step] at stepped
      split at stepped
      · rename_i nreduced isPc
        cases stepped
        exact .plain (isPc ▸ .loadN nreduced)
      · cases stepped
  | run thread => exact next_of_advance stepped

end Inversion

theorem pcs_goto (s : State w Thread α) (thread other : Thread) (pc : Pc w α) :
    (s.goto thread pc).pcs other = if other = thread then pc else s.pcs other := by
  by_cases same : other = thread <;> simp [State.goto, same]

variable [Fintype Thread]

theorem sum_goto (measure : Pc w α → Int) (s : State w Thread α) (thread : Thread) (pc : Pc w α) :
    ∑ other, measure ((s.goto thread pc).pcs other) =
      ∑ other, measure (s.pcs other) - measure (s.pcs thread) + measure pc :=
  Network.sum_update (fun _ => measure) s.pcs thread pc

theorem Pc.adding_le (pc : Pc w α) : 0 ≤ pc.adding ∧ pc.adding ≤ pc.uncounted := by
  cases pc <;> simp [Pc.adding, Pc.uncounted]

theorem InRange.lt (inRange : InRange w c flag) : c < 2 ^ w := by
  have positive : 0 < 2 ^ w := Nat.two_pow_pos w
  rcases inRange with less | ⟨-, isLast⟩
  · omega
  · omega

theorem toNat_m1 (w : Nat) : (m1 w).toNat = 2 ^ w - 1 := by
  rw [m1, BitVec.neg_one_eq_allOnes, BitVec.toNat_allOnes]

theorem toNat_increment {x : BitVec w} (inside : x.toNat + 1 < 2 ^ w) :
    (x + 1#w).toNat = x.toNat + 1 := by
  have isOne : (1#w).toNat = 1 := by
    rw [BitVec.toNat_ofNat, Nat.mod_eq_of_lt (by omega)]
  rw [BitVec.toNat_add, isOne, Nat.mod_eq_of_lt inside]

theorem toNat_count (inRange : InRange w c false) :
    count w c false ≠ m1 w ∧ (count w c false).toNat = c := by
  have less : c < 2 ^ w - 1 := inRange.resolve_right fun last => absurd last.1 Bool.false_ne_true
  have isC : (count w c false).toNat = c := by
    rw [count, if_neg Bool.false_ne_true, BitVec.toNat_ofNat, Nat.mod_eq_of_lt inRange.lt]
  refine ⟨fun same => ?_, isC⟩
  rw [same, toNat_m1] at isC
  omega

theorem Pc.measures_ofCount (cnt : BitVec w) :
    (ofCount cnt : Pc w α).uncounted = 0 ∧ (ofCount cnt : Pc w α).adding = 0 ∧
      (ofCount cnt : Pc w α).holds = false := by
  unfold ofCount
  split <;> exact ⟨rfl, rfl, rfl⟩

theorem Pc.ofCount_flag (c : Nat) : (ofCount (count w c true) : Pc w α) = flagLoad :=
  if_neg (not_not.mpr rfl)

theorem Pc.ofCount_count (inRange : InRange w c false) :
    (ofCount (count w c false) : Pc w α) = countStore (count w c false) :=
  if_pos (toNat_count inRange).1

structure Counting (c : Nat) (flag : Bool) (s : State w Thread α) : Prop where
  counted : s.nreduced.toNat + ∑ thread, (s.pcs thread).uncounted = s.items.length
  inSlots : s.added + ∑ thread, (s.pcs thread).adding = s.items.length
  atMost : s.items.length ≤ c
  flagged : flag = true → s.countPut = true → s.nreduced.toNat = c

namespace Counting

variable (counting : Counting c flag s)

include counting

omit [DecidableEq Thread] in
theorem uncounted_le (thread : Thread) :
    s.nreduced.toNat + (s.pcs thread).uncounted ≤ s.items.length := by
  have one : (s.pcs thread).uncounted ≤ ∑ other, (s.pcs other).uncounted :=
    Finset.single_le_sum (fun other _ => (s.pcs other).adding_le.1.trans (s.pcs other).adding_le.2)
      (Finset.mem_univ thread)
  have := counting.counted
  omega

omit [DecidableEq Thread] in
theorem complete (all : s.nreduced.toNat = c) :
    s.items.length = c ∧ s.added = c ∧ ∀ thread, (s.pcs thread).uncounted = 0 := by
  have counted := counting.counted
  have inSlots := counting.inSlots
  have atMost := counting.atMost
  have nonneg (thread : Thread) : 0 ≤ (s.pcs thread).uncounted :=
    (s.pcs thread).adding_le.1.trans (s.pcs thread).adding_le.2
  have positive : 0 ≤ ∑ thread, (s.pcs thread).uncounted :=
    Finset.sum_nonneg fun thread _ => nonneg thread
  have fewer : ∑ thread, (s.pcs thread).adding ≤ ∑ thread, (s.pcs thread).uncounted :=
    Finset.sum_le_sum fun thread _ => (s.pcs thread).adding_le.2
  have noneAdded : 0 ≤ ∑ thread, (s.pcs thread).adding :=
    Finset.sum_nonneg fun thread _ => (s.pcs thread).adding_le.1
  refine ⟨by omega, by omega, fun thread => ?_⟩
  have := counting.uncounted_le thread
  have := nonneg thread
  omega

theorem change {pc : Pc w α} (pcs : next.pcs = (s.goto thread pc).pcs)
    (counted : next.nreduced.toNat + pc.uncounted + s.items.length =
      s.nreduced.toNat + (s.pcs thread).uncounted + next.items.length)
    (inSlots : (next.added : Int) + pc.adding + s.items.length =
      s.added + (s.pcs thread).adding + next.items.length)
    (atMost : next.items.length ≤ c)
    (flagged : flag = true → next.countPut = true → next.nreduced.toNat = c) :
    Counting c flag next := by
  have before := counting.counted
  have inSlotsBefore := counting.inSlots
  refine ⟨?_, ?_, atMost, flagged⟩
  · rw [pcs, sum_goto]
    omega
  · rw [pcs, sum_goto]
    omega

omit [DecidableEq Thread] in
theorem items_ne_nil {val : α} (isPc : s.pcs thread = .addLocal val) : s.items ≠ [] := by
  have one := counting.uncounted_le thread
  rw [isPc] at one
  rintro none
  rw [none] at one
  simp only [Pc.uncounted, List.length_nil] at one
  omega

theorem plain {pc : Pc w α} (pcs : next.pcs = (s.goto thread pc).pcs)
    (uncounted : pc.uncounted = (s.pcs thread).uncounted)
    (adding : pc.adding = (s.pcs thread).adding) (items : next.items = s.items)
    (nreduced : next.nreduced = s.nreduced) (added : next.added = s.added)
    (countPut : next.countPut = s.countPut) : Counting c flag next := by
  refine counting.change pcs ?_ ?_ ?_ ?_
  · rw [uncounted, nreduced, items]
  · rw [adding, added, items]
  · rw [items]
    exact counting.atMost
  · rw [nreduced, countPut]
    exact counting.flagged

end Counting

omit [DecidableEq Thread] in
theorem counting_start (c : Nat) (flag : Bool) :
    Counting c flag (start w Thread α) := by
  refine ⟨?_, ?_, Nat.zero_le _, fun _ isPut => nomatch isPut⟩ <;>
    simp [start, Pc.uncounted, Pc.adding]

omit [DecidableEq Thread] [Fintype Thread] in
theorem Plain.measures {pc pc' : Pc w α} (plain : Plain s pc pc') :
    pc.uncounted = 0 ∧ pc'.uncounted = 0 ∧ pc.adding = 0 ∧ pc'.adding = 0 := by
  cases plain <;> exact ⟨rfl, rfl, rfl, rfl⟩

section Invariants

variable [CommMonoid α] [Inhabited α]

theorem Counting.preserved (inRange : InRange w c flag) (counting : Counting c flag s)
    (moved : Next c flag s thread next) : Counting c flag next := by
  cases moved with
  | putItem val isPc room =>
      have more : (s.items ++ [val]).length = s.items.length + 1 := List.length_append
      refine counting.change rfl ?_ ?_ ?_ counting.flagged
      · rw [isPc, more]
        change (s.nreduced.toNat : Int) + 1 + s.items.length =
          s.nreduced.toNat + 0 + (s.items.length + 1 : Nat)
        omega
      · rw [isPc, more]
        change (s.added : Int) + 1 + s.items.length = s.added + 0 + (s.items.length + 1 : Nat)
        omega
      · rw [more]
        exact room
  | putCount isPc once after =>
      have same := Pc.measures_ofCount (α := α) (count w c flag)
      refine counting.change rfl ?_ ?_ counting.atMost fun isFlag _ => ?_
      · rw [same.1, isPc]
        rfl
      · rw [same.2.1, isPc]
        rfl
      · obtain ⟨all, idle⟩ := after isFlag
        have counted := counting.counted
        simp only [idle _, Pc.uncounted, Finset.sum_const_zero] at counted
        change s.nreduced.toNat = c
        omega
  | @addLocal val isPc =>
      exact counting.plain rfl (by rw [isPc]; rfl) (by rw [isPc]; rfl) rfl rfl rfl rfl
  | @addStore val exists_ rval isPc found =>
      refine counting.change rfl ?_ ?_ counting.atMost counting.flagged
      · rw [isPc]
        rfl
      · simp [isPc, Pc.adding, State.goto]
  | itemCount isPc =>
      have room := counting.uncounted_le thread
      have atMost := counting.atMost
      rw [isPc] at room
      simp only [Pc.uncounted] at room
      have increment : (s.nreduced + 1#w).toNat = s.nreduced.toNat + 1 :=
        toNat_increment (by have := inRange.lt; omega)
      refine counting.change rfl ?_ ?_ atMost fun isFlag isPut => ?_
      · rw [isPc]
        change ((s.nreduced + 1#w).toNat : Int) + 0 + s.items.length =
          s.nreduced.toNat + 1 + s.items.length
        omega
      · rw [isPc]
        rfl
      · have := counting.flagged isFlag isPut
        omega
  | store isStore =>
      rcases isStore with isPc | isPc
      · exact counting.plain rfl (by rw [isPc]; rfl) (by rw [isPc]; rfl) rfl rfl rfl rfl
      · exact counting.plain rfl (by rw [isPc]; rfl) (by rw [isPc]; rfl) rfl rfl rfl rfl
  | plain isPlain =>
      obtain ⟨uncounted, uncounted', adding, adding'⟩ := isPlain.measures
      exact counting.plain rfl (uncounted'.trans uncounted.symm) (adding'.trans adding.symm) rfl
        rfl rfl rfl
  | putLock isPc _ =>
      exact counting.plain rfl (by rw [isPc]; rfl) (by rw [isPc]; rfl) rfl rfl rfl rfl
  | putOut isPc =>
      exact counting.plain rfl (by rw [isPc]; rfl) (by rw [isPc]; rfl) rfl rfl rfl rfl
  | putDone isPc =>
      exact counting.plain rfl (by rw [isPc]; rfl) (by rw [isPc]; rfl) rfl rfl rfl rfl
  | putUnlock isPc =>
      exact counting.plain rfl (by rw [isPc]; rfl) (by rw [isPc]; rfl) rfl rfl rfl rfl

omit [Inhabited α] in
theorem prod_goto (s : State w Thread α) (thread : Thread) :
    ∃ others, ∏ other, (s.pcs other).pending = (s.pcs thread).pending * others ∧
      ∀ pc, ∏ other, ((s.goto thread pc).pcs other).pending = pc.pending * others :=
  Combinable.prod_update (fun _ => Pc.pending) s.pcs thread

omit [DecidableEq Thread] [Fintype Thread] [Inhabited α] in
theorem Pc.of_adding {pc : Pc w α} (notAdding : pc.adding = 0) :
    pc.pending = 1 ∧ pc.fresh = false ∧ ∀ val exists_, pc ≠ .addStore val exists_ := by
  cases pc with
  | addLocal | addStore => exact absurd notAdding one_ne_zero
  | _ => exact ⟨rfl, rfl, fun _ _ isPc => nomatch isPc⟩

structure Values (s : State w Thread α) : Prop where
  total : (s.slots.total fun thread => !(s.pcs thread).fresh) *
    ∏ thread, (s.pcs thread).pending = s.items.prod
  nodup : s.slots.keys.Nodup
  isKey : ∀ thread val exists_, s.pcs thread = .addStore val exists_ → thread ∈ s.slots.keys
  empty : s.slots = [] → s.added = 0
  noSlot : s.items = [] → s.slots = []

omit [DecidableEq Thread] [Inhabited α] in
theorem values_start : Values (start w Thread α) := by
  refine ⟨?_, List.nodup_nil, fun _ _ _ isPc => (nomatch isPc), fun _ => rfl, fun _ => rfl⟩
  simp [start, Combinable.total, Pc.pending]

omit [Inhabited α] in
theorem Values.plain (values : Values s) {pc : Pc w α} (pcs : next.pcs = (s.goto thread pc).pcs)
    (slots : next.slots = s.slots) (items : next.items = s.items) (added : next.added = s.added)
    (notAdding : pc.adding = 0) (wasNotAdding : (s.pcs thread).adding = 0) : Values next := by
  obtain ⟨others, before, after⟩ := prod_goto s thread
  obtain ⟨pending, notFresh, notStoring⟩ := Pc.of_adding notAdding
  obtain ⟨wasPending, wasNotFresh, -⟩ := Pc.of_adding wasNotAdding
  have sameFresh : (fun other => !(next.pcs other).fresh) = fun other => !(s.pcs other).fresh := by
    funext other
    rw [pcs, pcs_goto]
    by_cases same : other = thread
    · rw [if_pos same, same, notFresh, wasNotFresh]
    · rw [if_neg same]
  refine ⟨?_, ?_, fun other val exists_ isPc => ?_, ?_, ?_⟩
  · rw [sameFresh, pcs, after, slots, items, pending, ← wasPending, ← before]
    exact values.total
  · rw [slots]
    exact values.nodup
  · rw [pcs, pcs_goto] at isPc
    rw [slots]
    by_cases same : other = thread
    · rw [if_pos same] at isPc
      exact absurd isPc (notStoring val exists_)
    · rw [if_neg same] at isPc
      exact values.isKey other val exists_ isPc
  · rw [slots, added]
    exact values.empty
  · rw [slots, items]
    exact values.noSlot

omit [Inhabited α] in
theorem Values.putItem (values : Values s) (val : α) (isPc : s.pcs thread = .idle) :
    Values { s.goto thread (.addLocal val) with items := s.items ++ [val] } := by
  obtain ⟨others, before, after⟩ := prod_goto s thread
  have sameFresh : (fun other => !((s.goto thread (.addLocal val)).pcs other).fresh) =
      fun other => !(s.pcs other).fresh := by
    funext other
    rw [pcs_goto]
    by_cases same : other = thread
    · rw [if_pos same, same, isPc]
      rfl
    · rw [if_neg same]
  refine ⟨?_, values.nodup, fun other val' exists_ isStore => ?_, values.empty, fun none => ?_⟩
  · change (s.slots.total fun other => !((s.goto thread (.addLocal val)).pcs other).fresh) *
      ∏ other, ((s.goto thread (.addLocal val)).pcs other).pending = (s.items ++ [val]).prod
    rw [sameFresh, after, List.prod_append, ← values.total, before, isPc]
    simp only [Pc.pending, one_mul, List.prod_singleton, mul_assoc, mul_comm]
  · change (s.goto thread (.addLocal val)).pcs other = _ at isStore
    rw [pcs_goto] at isStore
    by_cases same : other = thread
    · rw [if_pos same] at isStore
      cases isStore
    · rw [if_neg same] at isStore
      exact values.isKey other val' exists_ isStore
  · exact absurd none (by simp)

theorem Values.addLocal (values : Values s) {val : α} (some_ : s.items ≠ [])
    (isPc : s.pcs thread = .addLocal val) :
    Values { s.goto thread (.addStore val (decide (thread ∈ s.slots.keys))) with
      slots := s.slots.make thread } := by
  obtain ⟨others, before, after⟩ := prod_goto s thread
  have total : ((s.slots.make thread).total fun other =>
      !((s.goto thread (.addStore val (decide (thread ∈ s.slots.keys)))).pcs other).fresh) =
      s.slots.total fun other => !(s.pcs other).fresh := by
    rw [Combinable.total_make]
    · refine Combinable.total_congr fun other isKey => ?_
      rw [pcs_goto]
      by_cases same : other = thread
      · subst same
        rw [if_pos rfl, isPc]
        simp [Pc.fresh, isKey]
      · rw [if_neg same]
    · intro notKey
      rw [pcs_goto, if_pos rfl]
      simp [Pc.fresh, notKey]
  refine ⟨?_, Combinable.nodup_make values.nodup thread, fun other val' exists_ isStore => ?_,
    fun none => ?_, fun none => absurd none some_⟩
  · change ((s.slots.make thread).total fun other =>
      !((s.goto thread (.addStore val (decide (thread ∈ s.slots.keys)))).pcs other).fresh) *
      ∏ other, ((s.goto thread (.addStore val (decide (thread ∈ s.slots.keys)))).pcs
        other).pending = s.items.prod
    rw [total, after, ← values.total, before, isPc]
    rfl
  · change (s.goto thread (.addStore val (decide (thread ∈ s.slots.keys)))).pcs other = _ at isStore
    rw [pcs_goto] at isStore
    by_cases same : other = thread
    · rw [same]
      exact Combinable.mem_keys_make s.slots thread
    · rw [if_neg same] at isStore
      exact Combinable.mem_keys_make_of_mem (values.isKey other val' exists_ isStore)
  · have isKey := Combinable.mem_keys_make s.slots thread
    change s.slots.make thread = [] at none
    rw [none] at isKey
    exact absurd isKey List.not_mem_nil

omit [Inhabited α] in
theorem Values.addStore (values : Values s) {val rval : α} {exists_ : Bool}
    (isPc : s.pcs thread = .addStore val exists_) (found : s.slots.get thread = some rval) :
    Values { s.goto thread .itemCount with
      slots := s.slots.set thread ((if exists_ then rval else 1) * val)
      added := s.added + 1 } := by
  obtain ⟨others, before, after⟩ := prod_goto s thread
  have isKey := values.isKey thread val exists_ isPc
  obtain ⟨rest, old, new⟩ := @Combinable.total_set _ _ _ _ (fun other => !(s.pcs other).fresh)
    s.slots thread rval ((if exists_ then rval else 1) * val) values.nodup found isKey
  have sameElsewhere (other : Thread) (different : other ≠ thread) :
      (!((s.goto thread .itemCount).pcs other).fresh) = !(s.pcs other).fresh := by
    rw [pcs_goto, if_neg different]
  have total := new (fun other => !((s.goto thread .itemCount).pcs other).fresh) sameElsewhere
  rw [pcs_goto, if_pos rfl] at total
  rw [isPc] at old before
  refine ⟨?_, ?_, fun other val' exists' isStore => ?_, fun none => ?_, fun none => ?_⟩
  · change ((s.slots.set thread ((if exists_ then rval else 1) * val)).total fun other =>
      !((s.goto thread .itemCount).pcs other).fresh) *
      ∏ other, ((s.goto thread .itemCount).pcs other).pending = s.items.prod
    rw [total, after, ← values.total, old, before]
    cases exists_ <;> simp [Pc.fresh, Pc.pending, mul_comm, mul_left_comm]
  · change (s.slots.set thread _).keys.Nodup
    rw [Combinable.keys_set]
    exact values.nodup
  · change (s.goto thread .itemCount).pcs other = _ at isStore
    change other ∈ (s.slots.set thread _).keys
    rw [Combinable.keys_set]
    rw [pcs_goto] at isStore
    by_cases same : other = thread
    · rw [if_pos same] at isStore
      cases isStore
    · rw [if_neg same] at isStore
      exact values.isKey other val' exists' isStore
  · have isKeySet : thread ∈ (s.slots.set thread ((if exists_ then rval else 1) * val)).keys := by
      rwa [Combinable.keys_set]
    change s.slots.set thread _ = [] at none
    rw [none] at isKeySet
    exact absurd isKeySet List.not_mem_nil
  · have noSlot := values.noSlot none
    rw [noSlot] at isKey
    exact absurd isKey List.not_mem_nil

theorem Values.preserved (values : Values s)
    (some_ : ∀ val, s.pcs thread = .addLocal val → s.items ≠ [])
    (moved : Next c flag s thread next) : Values next := by
  cases moved with
  | putItem val isPc _ => exact values.putItem val isPc
  | putCount isPc _ _ =>
      exact values.plain rfl rfl rfl rfl (Pc.measures_ofCount _).2.1 (by rw [isPc]; rfl)
  | addLocal isPc => exact values.addLocal (some_ _ isPc) isPc
  | addStore isPc found => exact values.addStore isPc found
  | itemCount isPc => exact values.plain rfl rfl rfl rfl rfl (by rw [isPc]; rfl)
  | store isStore =>
      refine values.plain rfl rfl rfl rfl rfl ?_
      rcases isStore with isPc | isPc <;> rw [isPc] <;> rfl
  | plain isPlain =>
      obtain ⟨-, -, wasNotAdding, notAdding⟩ := isPlain.measures
      exact values.plain rfl rfl rfl rfl notAdding wasNotAdding
  | putLock isPc _ => exact values.plain rfl rfl rfl rfl rfl (by rw [isPc]; rfl)
  | putOut isPc => exact values.plain rfl rfl rfl rfl rfl (by rw [isPc]; rfl)
  | putDone isPc => exact values.plain rfl rfl rfl rfl rfl (by rw [isPc]; rfl)
  | putUnlock isPc => exact values.plain rfl rfl rfl rfl rfl (by rw [isPc]; rfl)

omit [DecidableEq Thread] in
theorem Values.combine (values : Values s) (counting : Counting c flag s)
    (all : s.nreduced.toNat = c) :
    s.slots.combine = if s.items = [] then default else s.items.prod := by
  obtain ⟨length, added, uncounted⟩ := counting.complete all
  have noneFresh (thread : Thread) : (s.pcs thread).fresh = false ∧
      (s.pcs thread).pending = 1 := by
    have := uncounted thread
    cases isPc : s.pcs thread <;> simp_all [Pc.uncounted, Pc.fresh, Pc.pending]
  by_cases none : s.items = []
  · rw [if_pos none, values.noSlot none]
    rfl
  · have nonempty : s.slots ≠ [] := by
      intro noSlot
      have noneAdded := values.empty noSlot
      have : s.items.length = 0 := by omega
      exact none (List.length_eq_zero_iff.mp this)
    rw [if_neg none, Combinable.combine_eq nonempty, ← values.total]
    simp [noneFresh]

def Fits (c : Nat) (flag : Bool) (s : State w Thread α) : Pc w α → Prop
  | .idle | .addLocal _ | .addStore _ _ | .itemCount => True
  | .flagLoad => flag = true ∧ s.countPut = true
  | .countStore n | .flagStore n => n.toNat = c ∧ s.countPut = true
  | .test nreduced n =>
      (∀ x ∈ nreduced, x.toNat ≤ s.nreduced.toNat) ∧ ∀ x ∈ n, x = m1 w ∨ x.toNat = c
  | .putLock => s.nreduced.toNat = c
  | .putStatus => s.nreduced.toNat = c ∧ s.locked = true
  | .putOut => s.nreduced.toNat = c ∧ s.locked = true ∧ s.done = false ∧ s.out = []
  | .putDone => s.nreduced.toNat = c ∧ s.locked = true ∧ s.done = false ∧ ∃ value, s.out = [value]
  | .putUnlock => s.nreduced.toNat = c ∧ s.locked = true ∧ s.done = true

def Pc.storing : Pc w α → Prop
  | countStore _ | flagLoad | flagStore _ => True
  | _ => False

/-- The thread is about to find out that all items are counted, or has done so. -/
def Pc.promises (c : Nat) : Pc w α → Prop
  | test nreduced n => (∀ x ∈ nreduced, x.toNat = c) ∧ ∀ x ∈ n, x.toNat = c
  | putLock | putStatus | putOut | putDone => True
  | _ => False

structure Putting (c : Nat) (flag : Bool) (s : State w Thread α) : Prop where
  fits : ∀ thread, Fits c flag s (s.pcs thread)
  isN : s.n = m1 w ∨ s.n.toNat = c
  stored : s.countPut = true → s.n.toNat = c ∨ ∃ thread, (s.pcs thread).storing
  exclusive : ∀ thread other, (s.pcs thread).holds = true → (s.pcs other).holds = true →
    thread = other
  held : s.locked = true → ∃ thread, (s.pcs thread).holds = true
  finished : s.done = true → ∃ value, s.out = [value]
  unfinished : s.done = false → s.out = [] ∨ ∃ thread, s.pcs thread = .putDone
  value : ∀ value ∈ s.out, s.nreduced.toNat = c ∧ value = s.slots.combine
  promised : s.n.toNat = c → s.nreduced.toNat = c →
    s.done = true ∨ ∃ thread, (s.pcs thread).promises c

omit [DecidableEq Thread] [Fintype Thread] in
theorem putting_start (positive : 0 < w) (c : Nat) (flag : Bool) :
    Putting c flag (start w Thread α) where
  fits _ := trivial
  isN := .inl rfl
  stored isPut := nomatch isPut
  exclusive _ _ holds _ := nomatch holds
  held locked := nomatch locked
  finished done := nomatch done
  unfinished _ := .inl rfl
  value _ isMember := nomatch isMember
  promised isC none := by
    have isLast : 2 ^ w - 1 = c := (toNat_m1 w).symm.trans isC
    have isZero : 0 = c := BitVec.toNat_zero.symm.trans none
    have atLeast : 2 ^ 1 ≤ 2 ^ w := Nat.pow_le_pow_right (by decide) positive
    omega

omit [DecidableEq Thread] [Fintype Thread] [CommMonoid α] [Inhabited α] in
theorem Fits.frame {pc : Pc w α} (fits : Fits c flag s pc)
    (nreduced : s.nreduced.toNat ≤ next.nreduced.toNat)
    (all : s.nreduced.toNat = c → next.nreduced.toNat = c)
    (countPut : s.countPut = true → next.countPut = true)
    (lock : pc.holds = true →
      next.locked = s.locked ∧ next.done = s.done ∧ next.out = s.out) :
    Fits c flag next pc := by
  cases pc with
  | idle | addLocal | addStore | itemCount => trivial
  | countStore | flagLoad | flagStore => exact ⟨fits.1, countPut fits.2⟩
  | test loaded n =>
      exact ⟨fun x isLoaded => (fits.1 x isLoaded).trans nreduced, fits.2⟩
  | putLock => exact all fits
  | putStatus =>
      obtain ⟨locked, done, out⟩ := lock rfl
      exact ⟨all fits.1, locked ▸ fits.2⟩
  | putOut =>
      obtain ⟨locked, done, out⟩ := lock rfl
      exact ⟨all fits.1, locked ▸ fits.2.1, done ▸ fits.2.2.1, out ▸ fits.2.2.2⟩
  | putDone =>
      obtain ⟨locked, done, out⟩ := lock rfl
      exact ⟨all fits.1, locked ▸ fits.2.1, done ▸ fits.2.2.1, out ▸ fits.2.2.2⟩
  | putUnlock =>
      obtain ⟨locked, done, out⟩ := lock rfl
      exact ⟨all fits.1, locked ▸ fits.2.1, done ▸ fits.2.2⟩

omit [DecidableEq Thread] [Fintype Thread] [CommMonoid α] [Inhabited α] in
theorem fits_begin (c : Nat) (flag : Bool) (s : State w Thread α) :
    Fits c flag s (.test none none) := by
  constructor <;> intro x isLoaded <;> cases isLoaded

omit [CommMonoid α] [Inhabited α] in
theorem promises_begin (c : Nat) : (.test none none : Pc w α).promises c := by
  constructor <;> intro x isLoaded <;> cases isLoaded

namespace Putting

variable {pc : Pc w α} (putting : Putting c flag s)

include putting

omit [DecidableEq Thread] [Fintype Thread] in
theorem locked_of_holds (holds : (s.pcs thread).holds = true) :
    s.nreduced.toNat = c ∧ s.locked = true := by
  have fits := putting.fits thread
  cases isPc : s.pcs thread with
  | putStatus =>
      rw [isPc] at fits
      exact fits
  | putOut | putDone | putUnlock =>
      rw [isPc] at fits
      exact ⟨fits.1, fits.2.1⟩
  | _ =>
      rw [isPc] at holds
      exact nomatch holds

omit [DecidableEq Thread] [Fintype Thread] in
theorem others_of_holds (holds : (s.pcs thread).holds = true) (other : Thread)
    (different : other ≠ thread) : (s.pcs other).holds = false := by
  cases otherHolds : (s.pcs other).holds with
  | false => rfl
  | true => exact absurd (putting.exclusive other thread otherHolds holds) different

omit [DecidableEq Thread] [Fintype Thread] in
theorem out_of_holds (holds : (s.pcs thread).holds = true) (isPc : s.pcs thread ≠ .putDone)
    (notDone : s.done = false) : s.out = [] := by
  rcases putting.unfinished notDone with none | ⟨other, isPut⟩
  · exact none
  · have same := putting.exclusive other thread (by rw [isPut]; rfl) holds
    exact absurd (same ▸ isPut) isPc

omit [Fintype Thread] in
theorem change (pcs : next.pcs = (s.goto thread pc).pcs) (fits : Fits c flag next pc)
    (nreduced : s.nreduced.toNat ≤ next.nreduced.toNat)
    (all : s.nreduced.toNat = c → next.nreduced.toNat = c)
    (countPut : s.countPut = true → next.countPut = true)
    (lock : (∀ other, other ≠ thread → (s.pcs other).holds = false) ∨
      next.locked = s.locked ∧ next.done = s.done ∧ next.out = s.out)
    (isN : next.n = s.n ∨ next.n.toNat = c)
    (stored : next.countPut = true → s.countPut = true ∨ pc.storing)
    (storing : (s.pcs thread).storing → pc.storing ∨ next.n.toNat = c)
    (acquires : pc.holds = true → ∀ other, other ≠ thread → (s.pcs other).holds = false)
    (held : next.locked = true → pc.holds = true ∨ s.locked = true ∧ (s.pcs thread).holds = false)
    (finished : next.done = true → ∃ value, next.out = [value])
    (unfinished : next.done = false → next.out = [] ∨ ∃ other, next.pcs other = .putDone)
    (value : ∀ value ∈ next.out, next.nreduced.toNat = c ∧ value = next.slots.combine)
    (done : s.done = true → next.done = true)
    (begins : next.n.toNat = c → next.nreduced.toNat = c →
      s.n.toNat = c ∧ s.nreduced.toNat = c ∨ pc.promises c)
    (promises : s.n.toNat = c → s.nreduced.toNat = c → (s.pcs thread).promises c →
      pc.promises c ∨ next.done = true) :
    Putting c flag next := by
  have elsewhere (other : Thread) (different : other ≠ thread) : next.pcs other = s.pcs other := by
    rw [pcs, pcs_goto, if_neg different]
  have here : next.pcs thread = pc := by
    rw [pcs, pcs_goto, if_pos rfl]
  refine ⟨fun other => ?_, ?_, fun isPut => ?_, fun first second => ?_, fun isLocked => ?_,
    finished, unfinished, value, fun isC isAll => ?_⟩
  · by_cases same : other = thread
    · rw [same, here]
      exact fits
    · rw [elsewhere other same]
      refine (putting.fits other).frame nreduced all countPut fun holds => ?_
      rcases lock with alone | unchanged
      · exact absurd holds (by rw [alone other same]; exact Bool.false_ne_true)
      · exact unchanged
  · rcases isN with same | isC
    · rw [same]
      exact putting.isN
    · exact .inr isC
  · rcases stored isPut with wasPut | isStoring
    · rcases putting.stored wasPut with isC | ⟨other, isStoring⟩
      · rcases isN with same | isC'
        · exact .inl ((congrArg BitVec.toNat same).trans isC)
        · exact .inl isC'
      · by_cases same : other = thread
        · subst same
          rcases storing isStoring with isStoring | isC
          · exact .inr ⟨other, by rwa [here]⟩
          · exact .inl isC
        · exact .inr ⟨other, by rwa [elsewhere other same]⟩
    · exact .inr ⟨thread, by rwa [here]⟩
  · intro firstHolds secondHolds
    by_cases isFirst : first = thread
    · by_cases isSecond : second = thread
      · rw [isFirst, isSecond]
      · rw [isFirst, here] at firstHolds
        rw [elsewhere second isSecond, acquires firstHolds second isSecond] at secondHolds
        exact nomatch secondHolds
    · by_cases isSecond : second = thread
      · rw [isSecond, here] at secondHolds
        rw [elsewhere first isFirst, acquires secondHolds first isFirst] at firstHolds
        exact nomatch firstHolds
      · rw [elsewhere first isFirst] at firstHolds
        rw [elsewhere second isSecond] at secondHolds
        exact putting.exclusive first second firstHolds secondHolds
  · rcases held isLocked with holds | ⟨wasLocked, notHeld⟩
    · exact ⟨thread, by rwa [here]⟩
    · obtain ⟨other, holds⟩ := putting.held wasLocked
      have different : other ≠ thread := by
        rintro rfl
        rw [notHeld] at holds
        exact nomatch holds
      exact ⟨other, by rwa [elsewhere other different]⟩
  · rcases begins isC isAll with ⟨wasC, wasAll⟩ | isPromise
    · rcases putting.promised wasC wasAll with isDone | ⟨other, isPromise⟩
      · exact .inl (done isDone)
      · by_cases same : other = thread
        · subst same
          rcases promises wasC wasAll isPromise with isPromise | isDone
          · exact .inr ⟨other, by rwa [here]⟩
          · exact .inl isDone
        · exact .inr ⟨other, by rwa [elsewhere other same]⟩
    · exact .inr ⟨thread, by rwa [here]⟩

omit [Fintype Thread] in
theorem quiet (pcs : next.pcs = (s.goto thread pc).pcs) (fits : Fits c flag next pc)
    (notHeld : (s.pcs thread).holds = false) (notHolds : pc.holds = false)
    (locked : next.locked = s.locked) (done : next.done = s.done) (out : next.out = s.out)
    (combine : s.out ≠ [] → next.slots.combine = s.slots.combine)
    (nreduced : s.nreduced.toNat ≤ next.nreduced.toNat)
    (all : s.nreduced.toNat = c → next.nreduced.toNat = c)
    (countPut : s.countPut = true → next.countPut = true)
    (isN : next.n = s.n ∨ next.n.toNat = c)
    (stored : next.countPut = true → s.countPut = true ∨ pc.storing)
    (storing : (s.pcs thread).storing → pc.storing ∨ next.n.toNat = c)
    (begins : next.n.toNat = c → next.nreduced.toNat = c →
      s.n.toNat = c ∧ s.nreduced.toNat = c ∨ pc.promises c)
    (promises : s.n.toNat = c → s.nreduced.toNat = c → (s.pcs thread).promises c →
      pc.promises c ∨ next.done = true) :
    Putting c flag next := by
  refine putting.change pcs fits nreduced all countPut (.inr ⟨locked, done, out⟩) isN stored
    storing (fun holds => ?_) (fun isLocked => .inr ⟨locked ▸ isLocked, notHeld⟩) ?_ ?_ ?_
    (fun isDone => done.trans isDone) begins promises
  · rw [notHolds] at holds
    exact nomatch holds
  · rw [done, out]
    exact putting.finished
  · rw [done, out]
    intro notDone
    rcases putting.unfinished notDone with none | ⟨other, isPc⟩
    · exact .inl none
    · have different : other ≠ thread := by
        rintro rfl
        rw [isPc] at notHeld
        exact nomatch notHeld
      refine .inr ⟨other, ?_⟩
      rw [pcs, pcs_goto, if_neg different]
      exact isPc
  · rw [out]
    intro value isMember
    obtain ⟨isAll, same⟩ := putting.value value isMember
    have nonempty : s.out ≠ [] := List.ne_nil_of_mem isMember
    exact ⟨all isAll, same.trans (combine nonempty).symm⟩

omit [Fintype Thread] in
theorem plain (inRange : InRange w c flag) (isPlain : Plain s (s.pcs thread) pc)
    (bound : s.nreduced.toNat ≤ c)
    (flagged : flag = true → s.countPut = true → s.nreduced.toNat = c) :
    Putting c flag (s.goto thread pc) := by
  have fits := putting.fits thread
  generalize isPc : s.pcs thread = before at isPlain fits
  have notStoring (notBefore : ¬ before.storing) :
      (s.pcs thread).storing → pc.storing ∨ s.n.toNat = c :=
    fun isStoring => absurd (isPc ▸ isStoring) notBefore
  cases isPlain with
  | loadReduced n =>
      refine putting.quiet rfl ⟨fun x isLoaded => ?_, fits.2⟩ (by rw [isPc]; rfl) rfl rfl rfl rfl
        (fun _ => rfl) le_rfl id id (.inl rfl) .inl (notStoring id)
        (fun isC isAll => .inl ⟨isC, isAll⟩)
        fun isC isAll isPromise => ?_
      · cases isLoaded
        exact le_rfl
      · rw [isPc] at isPromise
        exact .inl ⟨fun x isLoaded => by cases isLoaded; exact isAll, isPromise.2⟩
  | loadN nreduced =>
      refine putting.quiet rfl ⟨fits.1, fun x isLoaded => ?_⟩ (by rw [isPc]; rfl) rfl rfl rfl rfl
        (fun _ => rfl) le_rfl id id (.inl rfl) .inl (notStoring id)
        (fun isC isAll => .inl ⟨isC, isAll⟩)
        fun isC isAll isPromise => ?_
      · cases isLoaded
        exact putting.isN
      · rw [isPc] at isPromise
        exact .inl ⟨isPromise.1, fun x isLoaded => by cases isLoaded; exact isC⟩
  | flagLoad =>
      exact putting.quiet rfl ⟨flagged fits.1 fits.2, fits.2⟩ (by rw [isPc]; rfl) rfl rfl rfl rfl
        (fun _ => rfl) le_rfl id id (.inl rfl) .inl (fun _ => .inl trivial)
        (fun isC isAll => .inl ⟨isC, isAll⟩)
        fun isC isAll isPromise => by rw [isPc] at isPromise; exact isPromise.elim
  | equal n =>
      have loaded := fits.1 n rfl
      have isC : n.toNat = c := by
        rcases fits.2 n rfl with isLast | isC
        · rw [isLast, toNat_m1] at loaded ⊢
          have less := inRange.lt
          omega
        · exact isC
      have isAll : s.nreduced.toNat = c := le_antisymm bound (isC ▸ loaded)
      exact putting.quiet rfl isAll (by rw [isPc]; rfl) rfl rfl rfl rfl
        (fun _ => rfl) le_rfl id id (.inl rfl) .inl (notStoring id)
        (fun isC isAll => .inl ⟨isC, isAll⟩) fun _ _ _ => .inl trivial
  | @different nreduced n differs =>
      exact putting.quiet rfl trivial (by rw [isPc]; rfl) rfl rfl rfl rfl
        (fun _ => rfl) le_rfl id id (.inl rfl) .inl (notStoring id)
        (fun isC isAll => .inl ⟨isC, isAll⟩) fun _ _ isPromise => by
          rw [isPc] at isPromise
          exact absurd (BitVec.eq_of_toNat_eq
            ((isPromise.1 nreduced rfl).trans (isPromise.2 n rfl).symm)) differs
  | finished done =>
      have others := putting.others_of_holds (by rw [isPc]; rfl)
      exact putting.change rfl ⟨fits.1, fits.2, done⟩ le_rfl id id (.inr ⟨rfl, rfl, rfl⟩) (.inl rfl)
        .inl (notStoring id) (fun _ => others) (fun _ => .inl rfl) putting.finished
        (fun notDone => absurd done (by
          rw [show s.done = false from notDone]
          exact Bool.false_ne_true))
        putting.value id (fun isC isAll => .inl ⟨isC, isAll⟩) fun _ _ _ => .inr done
  | unfinished notDone =>
      have others := putting.others_of_holds (by rw [isPc]; rfl)
      have noneOut := putting.out_of_holds (by rw [isPc]; rfl)
        (by rw [isPc]; exact fun isPut => nomatch isPut) notDone
      exact putting.change rfl ⟨fits.1, fits.2, notDone, noneOut⟩ le_rfl id id
        (.inr ⟨rfl, rfl, rfl⟩) (.inl rfl) .inl (notStoring id) (fun _ => others)
        (fun _ => .inl rfl) putting.finished (fun _ => .inl noneOut) putting.value id
        (fun isC isAll => .inl ⟨isC, isAll⟩) fun _ _ _ => .inl trivial

theorem preserved (inRange : InRange w c flag) (counting : Counting c flag s)
    (moved : Next c flag s thread next) : Putting c flag next := by
  have bound : s.nreduced.toNat ≤ c := by
    have := counting.uncounted_le thread
    have := (s.pcs thread).adding_le
    have := counting.atMost
    omega
  have fits := putting.fits thread
  have noneOut (isAdding : (s.pcs thread).uncounted = 1) : s.out = [] := by
    by_contra some_
    obtain ⟨value, isMember⟩ := List.exists_mem_of_ne_nil _ some_
    have none := (counting.complete (putting.value value isMember).1).2.2 thread
    omega
  cases moved with
  | putItem val isPc room =>
      exact putting.quiet rfl trivial (by rw [isPc]; rfl) rfl rfl rfl rfl (fun _ => rfl) le_rfl
        id id
        (.inl rfl) .inl (fun isStoring => by rw [isPc] at isStoring; exact isStoring.elim)
        (fun isC isAll => .inl ⟨isC, isAll⟩)
        fun _ _ isPromise => by rw [isPc] at isPromise; exact isPromise.elim
  | putCount isPc once after =>
      refine putting.quiet rfl ?_ (by rw [isPc]; rfl) (Pc.measures_ofCount _).2.2 rfl rfl rfl
        (fun _ => rfl) le_rfl id (fun _ => rfl) (.inl rfl) (fun _ => .inr ?_)
        (fun isStoring => by rw [isPc] at isStoring; exact isStoring.elim)
        (fun isC isAll => .inl ⟨isC, isAll⟩)
        fun _ _ isPromise => by rw [isPc] at isPromise; exact isPromise.elim
      · cases flag with
        | true =>
            rw [Pc.ofCount_flag]
            exact ⟨rfl, rfl⟩
        | false =>
            rw [Pc.ofCount_count inRange]
            exact ⟨(toNat_count inRange).2, rfl⟩
      · unfold Pc.ofCount
        split <;> trivial
  | @addLocal val isPc =>
      have isAdding : (s.pcs thread).uncounted = 1 := by rw [isPc]; rfl
      exact putting.quiet rfl trivial (by rw [isPc]; rfl) rfl rfl rfl rfl
        (fun some_ => absurd (noneOut isAdding) some_) le_rfl id id (.inl rfl) .inl
        (fun isStoring => by rw [isPc] at isStoring; exact isStoring.elim)
        (fun isC isAll => .inl ⟨isC, isAll⟩)
        fun _ _ isPromise => by rw [isPc] at isPromise; exact isPromise.elim
  | @addStore val exists_ rval isPc found =>
      have isAdding : (s.pcs thread).uncounted = 1 := by rw [isPc]; rfl
      exact putting.quiet rfl trivial (by rw [isPc]; rfl) rfl rfl rfl rfl
        (fun some_ => absurd (noneOut isAdding) some_) le_rfl id id (.inl rfl) .inl
        (fun isStoring => by rw [isPc] at isStoring; exact isStoring.elim)
        (fun isC isAll => .inl ⟨isC, isAll⟩)
        fun _ _ isPromise => by rw [isPc] at isPromise; exact isPromise.elim
  | itemCount isPc =>
      have increment : (s.nreduced + 1#w).toNat = s.nreduced.toNat + 1 := by
        have room := counting.uncounted_le thread
        have atMost := counting.atMost
        have less := inRange.lt
        rw [isPc] at room
        simp only [Pc.uncounted] at room
        exact toNat_increment (by omega)
      refine putting.quiet rfl (fits_begin c flag _) (by rw [isPc]; rfl) rfl rfl rfl rfl
        (fun _ => rfl) (increment.symm ▸ Nat.le_succ _) (fun isAll => ?_) id
        (.inl rfl) .inl (fun isStoring => by rw [isPc] at isStoring; exact isStoring.elim)
        (fun _ _ => .inr (promises_begin c))
        fun _ _ isPromise => by rw [isPc] at isPromise; exact isPromise.elim
      have none := (counting.complete isAll).2.2 thread
      rw [isPc] at none
      exact absurd none one_ne_zero
  | @store n isStore =>
      have isC : n.toNat = c := by
        rcases isStore with isPc | isPc
        · rw [isPc] at fits
          exact fits.1
        · rw [isPc] at fits
          exact fits.1
      have notHeld : (s.pcs thread).holds = false := by
        rcases isStore with isPc | isPc <;> rw [isPc] <;> rfl
      exact putting.quiet rfl (fits_begin c flag _) notHeld rfl rfl rfl rfl (fun _ => rfl) le_rfl
        id id
        (.inr isC) .inl (fun _ => .inr isC)
        (fun _ _ => .inr (promises_begin c))
        fun _ _ _ => .inl (promises_begin c)
  | plain isPlain => exact putting.plain inRange isPlain bound counting.flagged
  | putLock isPc unlocked =>
      rw [isPc] at fits
      have noneHolds (other : Thread) : (s.pcs other).holds = false := by
        cases holds : (s.pcs other).holds with
        | false => rfl
        | true =>
            have isLocked := (putting.locked_of_holds holds).2
            rw [unlocked] at isLocked
            exact nomatch isLocked
      refine putting.change rfl ⟨fits, rfl⟩ le_rfl id id (.inl fun other _ => noneHolds other)
        (.inl rfl) .inl (fun isStoring => by rw [isPc] at isStoring; exact isStoring.elim)
        (fun _ other _ => noneHolds other) (fun _ => .inl rfl) putting.finished (fun notDone => ?_)
        putting.value id (fun isC isAll => .inl ⟨isC, isAll⟩) fun _ _ _ => .inl trivial
      rcases putting.unfinished notDone with none | ⟨other, isPut⟩
      · exact .inl none
      · have holds := noneHolds other
        rw [isPut] at holds
        exact nomatch holds
  | putOut isPc =>
      rw [isPc] at fits
      obtain ⟨isAll, isLocked, notDone, none⟩ := fits
      have others := putting.others_of_holds (by rw [isPc]; rfl)
      have isOut : s.out ++ [s.slots.combine] = [s.slots.combine] := by rw [none, List.nil_append]
      refine putting.change rfl ⟨isAll, isLocked, notDone, _, isOut⟩ le_rfl id id (.inl others)
        (.inl rfl) .inl (fun isStoring => by rw [isPc] at isStoring; exact isStoring.elim)
        (fun _ => others) (fun _ => .inl rfl) (fun _ => ⟨_, isOut⟩) (fun _ => .inr ⟨thread, ?_⟩)
        (fun value isMember => ⟨isAll, ?_⟩) id (fun isC isAll => .inl ⟨isC, isAll⟩)
        fun _ _ _ => .inl trivial
      · exact (pcs_goto s thread thread .putDone).trans (if_pos rfl)
      · have isMember : value ∈ s.out ++ [s.slots.combine] := isMember
        rw [isOut] at isMember
        exact List.mem_singleton.mp isMember
  | putDone isPc =>
      rw [isPc] at fits
      obtain ⟨isAll, isLocked, notDone, isOut⟩ := fits
      have others := putting.others_of_holds (by rw [isPc]; rfl)
      exact putting.change rfl ⟨isAll, isLocked, rfl⟩ le_rfl id id (.inl others)
        (.inl rfl) .inl (fun isStoring => by rw [isPc] at isStoring; exact isStoring.elim)
        (fun _ => others) (fun _ => .inl rfl) (fun _ => isOut) (fun notDone => nomatch notDone)
        putting.value (fun _ => rfl) (fun isC isAll => .inl ⟨isC, isAll⟩) fun _ _ _ => .inr rfl
  | putUnlock isPc =>
      rw [isPc] at fits
      obtain ⟨isAll, isLocked, isDone⟩ := fits
      have others := putting.others_of_holds (by rw [isPc]; rfl)
      exact putting.change rfl trivial le_rfl id id (.inl others)
        (.inl rfl) .inl (fun isStoring => by rw [isPc] at isStoring; exact isStoring.elim)
        (fun holds => nomatch holds) (fun isLocked => nomatch isLocked) putting.finished
        (fun notDone => absurd isDone (by
          rw [show s.done = false from notDone]
          exact Bool.false_ne_true))
        putting.value id (fun isC isAll => .inl ⟨isC, isAll⟩) fun _ _ _ => .inr isDone

end Putting

structure Inv (c : Nat) (flag : Bool) (s : State w Thread α) : Prop where
  counting : Counting c flag s
  values : Values s
  putting : Putting c flag s

theorem inv_of_reached (positive : 0 < w) (inRange : InRange w c flag)
    (reached : Reached (system (count w c flag)) (Puts c flag) s) : Inv c flag s := by
  refine reached.invariant (Inv c flag) ?_ ?_
  · rintro state rfl
    exact ⟨counting_start c flag, values_start, putting_start positive c flag⟩
  · intro state action next _ inv allowed stepped
    have moved := next_of_step allowed stepped
    exact ⟨inv.counting.preserved inRange moved,
      inv.values.preserved (fun _ => inv.counting.items_ne_nil) moved,
      inv.putting.preserved inRange inv.counting moved⟩

omit [Fintype Thread] in
theorem Next.operation (moved : Next c flag s thread next) (busy : s.pcs thread ≠ .idle) :
    (∃ pc, next.pcs = (s.goto thread pc).pcs ∧ pc.work < (s.pcs thread).work) ∧
      next.items = s.items ∧ next.countPut = s.countPut := by
  cases moved with
  | putItem val isPc _ => exact absurd isPc busy
  | putCount isPc _ _ => exact absurd isPc busy
  | store isStore =>
      refine ⟨⟨_, rfl, ?_⟩, rfl, rfl⟩
      rcases isStore with isPc | isPc <;> rw [isPc] <;> exact Nat.lt_succ_self 8
  | @plain pc isPlain =>
      refine ⟨⟨pc, rfl, ?_⟩, rfl, rfl⟩
      generalize s.pcs thread = before at isPlain
      cases isPlain with
      | loadReduced n => cases n <;> simp [Pc.work]
      | loadN nreduced => cases nreduced <;> simp [Pc.work]
      | _ => simp [Pc.work]
  | addLocal isPc | addStore isPc _ | itemCount isPc | putLock isPc _ | putOut isPc | putDone isPc
  | putUnlock isPc =>
      refine ⟨⟨_, rfl, ?_⟩, rfl, rfl⟩
      rw [isPc]
      simp [Pc.work]

omit [Fintype Thread] in
theorem busy_of_step {action : Action Thread α} (isOperation : action.isOperation = true)
    (stepped : step (count w c flag) s action = some next) : s.pcs action.thread ≠ .idle := by
  intro isIdle
  cases action with
  | putItem | putCount => exact nomatch isOperation
  | loadReduced thread | loadN thread | run thread =>
      simp only [Action.thread] at isIdle
      simp [step, advance, isIdle] at stepped

omit [Fintype Thread] [DecidableEq Thread] [CommMonoid α] [Inhabited α] in
theorem puts_of_operation {action : Action Thread α} (isOperation : action.isOperation = true) :
    Puts c flag s action := by
  cases action with
  | putItem | putCount => exact nomatch isOperation
  | loadReduced | loadN | run => trivial

theorem operation_of_step {action : Action Thread α} (isOperation : action.isOperation = true)
    (stepped : step (count w c flag) s action = some next) :
    next.work < s.work ∧ next.items = s.items ∧ next.countPut = s.countPut := by
  have allowed : Puts c flag s action := puts_of_operation isOperation
  obtain ⟨⟨pc, pcs, less⟩, items, countPut⟩ :=
    (next_of_step allowed stepped).operation (busy_of_step isOperation stepped)
  refine ⟨?_, items, countPut⟩
  rw [State.work, pcs, sum_goto (fun pc => (pc.work : Int))]
  change s.work - _ + _ < s.work
  omega

omit [Fintype Thread] in
theorem exists_step (busy : s.pcs thread ≠ .idle)
    (isKey : ∀ val exists_, s.pcs thread = .addStore val exists_ → thread ∈ s.slots.keys)
    (unlocked : s.pcs thread = .putLock → s.locked = false) :
    ∃ action : Action Thread α, action.isOperation = true ∧
      (step (count w c flag) s action).isSome := by
  cases isPc : s.pcs thread with
  | idle => exact absurd isPc busy
  | test nreduced n =>
      cases nreduced with
      | none => exact ⟨.loadReduced thread, rfl, by simp [step, isPc]⟩
      | some nreduced =>
          cases n with
          | none => exact ⟨.loadN thread, rfl, by simp [step, isPc]⟩
          | some n => exact ⟨.run thread, rfl, by simp [step, advance, isPc]⟩
  | addStore val exists_ =>
      obtain ⟨rval, found⟩ := Combinable.exists_get (isKey val exists_ isPc)
      exact ⟨.run thread, rfl, by simp [step, advance, isPc, found]⟩
  | putLock => exact ⟨.run thread, rfl, by simp [step, advance, isPc, unlocked isPc]⟩
  | _ => exact ⟨.run thread, rfl, by simp [step, advance, isPc]⟩

theorem Inv.progress (inv : Inv c flag s) (notIdle : ¬ s.Idle) :
    ∃ action : Action Thread α, action.isOperation = true ∧
      (step (count w c flag) s action).isSome := by
  cases isLocked : s.locked with
  | true =>
      obtain ⟨thread, holds⟩ := inv.putting.held isLocked
      refine exists_step (fun isIdle => ?_) (inv.values.isKey thread) fun isPc => ?_
      · rw [isIdle] at holds
        exact nomatch holds
      · rw [isPc] at holds
        exact nomatch holds
  | false =>
      obtain ⟨thread, busy⟩ := not_forall.mp notIdle
      exact exists_step busy (inv.values.isKey thread) fun _ => isLocked

/-- Runs in which no callback is held up, of items and a count as they are put. -/
structure Free (c : Nat) (flag : Bool)
    (allowed : State w Thread α → Action Thread α → Prop) : Prop where
  operation : ∀ s action, action.isOperation = true → allowed s action
  item : ∀ s thread val, s.items.length < c → allowed s (.putItem thread val)
  puts : ∀ s action, allowed s action → Puts c flag s action

variable {allowed : State w Thread α → Action Thread α → Prop}

omit [Fintype Thread] [DecidableEq Thread] [CommMonoid α] [Inhabited α] in
theorem free_puts (c : Nat) (flag : Bool) :
    Free c flag (Puts c flag : State w Thread α → Action Thread α → Prop) :=
  ⟨fun _ _ => puts_of_operation, fun _ _ _ room => room, fun _ _ puts => puts⟩

theorem completes (positive : 0 < w) (inRange : InRange w c flag) (free : Free c flag allowed)
    (reached : Reached (system (count w c flag)) allowed s) :
    ∃ next : State w Thread α, Reached (system (count w c flag)) allowed next ∧ next.Idle ∧
      next.items = s.items ∧ next.countPut = s.countPut := by
  have nonneg (s : State w Thread α) : 0 ≤ s.work :=
    Finset.sum_nonneg fun thread _ => Int.natCast_nonneg _
  induction bound : s.work.toNat using Nat.strong_induction_on generalizing s with
  | _ work inductionHypothesis =>
      by_cases isIdle : s.Idle
      · exact ⟨s, reached, isIdle, rfl, rfl⟩
      · have inv := inv_of_reached positive inRange (reached.weaken free.puts)
        obtain ⟨action, isOperation, isSome⟩ := inv.progress isIdle
        obtain ⟨middle, stepped⟩ := Option.isSome_iff_exists.mp isSome
        obtain ⟨less, items, countPut⟩ := operation_of_step isOperation stepped
        have nonnegMiddle := nonneg middle
        obtain ⟨last, reachedLast, idle, sameItems, sameCount⟩ :=
          inductionHypothesis middle.work.toNat (by omega)
            (reached.step (free.operation s action isOperation) stepped) rfl
        exact ⟨last, reachedLast, idle, sameItems.trans items, sameCount.trans countPut⟩

theorem fills [Inhabited Thread] (positive : 0 < w) (inRange : InRange w c flag)
    (free : Free c flag allowed) (idle : s.Idle) (atMost : s.items.length ≤ c)
    (reached : Reached (system (count w c flag)) allowed s) :
    ∃ next : State w Thread α, Reached (system (count w c flag)) allowed next ∧ next.Idle ∧
      next.items.length = c ∧ next.countPut = s.countPut := by
  induction left : c - s.items.length generalizing s with
  | zero => exact ⟨s, reached, idle, by omega, rfl⟩
  | succ left inductionHypothesis =>
      have stepped : step (count w c flag) s (.putItem default 1) = some
          { s.goto default (.addLocal 1) with items := s.items ++ [1] } := by
        rw [step, idle default]
      obtain ⟨middle, reachedMiddle, isIdle, items, countPut⟩ := completes positive inRange free
        (reached.step (free.item s default 1 (by omega)) stepped)
      have more : middle.items.length = s.items.length + 1 := by
        rw [items]
        exact List.length_append
      obtain ⟨last, reachedLast, lastIdle, all, sameCount⟩ :=
        inductionHypothesis isIdle (by omega) reachedMiddle (by omega)
      exact ⟨last, reachedLast, lastIdle, all, sameCount.trans countPut⟩

omit [DecidableEq Thread] in
theorem Inv.out_of_isN (inv : Inv c flag s) (all : s.items.length = c) (isC : s.n.toNat = c)
    (idle : s.Idle) : s.out ≠ [] := by
  have counted := inv.counting.counted
  simp only [idle _, Pc.uncounted, Finset.sum_const_zero] at counted
  rcases inv.putting.promised isC (by omega) with isDone | ⟨thread, isPromise⟩
  · obtain ⟨value, isOut⟩ := inv.putting.finished isDone
    rw [isOut]
    exact List.cons_ne_nil value []
  · rw [idle thread] at isPromise
    exact isPromise.elim

omit [DecidableEq Thread] in
theorem Inv.out_of_idle (inv : Inv c flag s) (all : s.items.length = c)
    (isPut : s.countPut = true) (idle : s.Idle) : s.out ≠ [] := by
  rcases inv.putting.stored isPut with isC | ⟨thread, isStoring⟩
  · exact inv.out_of_isN all isC idle
  · rw [idle thread] at isStoring
    exact isStoring.elim

omit [DecidableEq Thread] in
theorem Inv.length_out (inv : Inv c flag s) : s.out.length ≤ 1 := by
  cases isDone : s.done with
  | true =>
      obtain ⟨value, isOut⟩ := inv.putting.finished isDone
      rw [isOut]
      exact le_rfl
  | false =>
      rcases inv.putting.unfinished isDone with none | ⟨thread, isPc⟩
      · rw [none]
        exact Nat.zero_le 1
      · have fits := inv.putting.fits thread
        rw [isPc] at fits
        obtain ⟨-, -, -, value, isOut⟩ := fits
        rw [isOut]
        exact le_rfl

omit [DecidableEq Thread] in
theorem Inv.value (inv : Inv c flag s) {value : α} (isMember : value ∈ s.out) :
    s.items.length = c ∧ s.added = c ∧
      value = if s.items = [] then default else s.items.prod := by
  obtain ⟨isAll, same⟩ := inv.putting.value value isMember
  obtain ⟨length, added, -⟩ := inv.counting.complete isAll
  exact ⟨length, added, same.trans (inv.values.combine inv.counting isAll)⟩

omit [DecidableEq Thread] in
theorem Inv.added (inv : Inv c flag s) (some_ : s.out ≠ []) : s.added = c := by
  obtain ⟨value, isMember⟩ := List.exists_mem_of_ne_nil _ some_
  exact (inv.value isMember).2.1

theorem Inv.holds (inv : Inv c flag s) (condition : 0 < c ∨ (default : α) = 1) :
    Holds c flag s := by
  refine ⟨inv.length_out, inv.added, fun value isMember => ?_, inv.out_of_idle, inv.progress,
    fun action next isOperation stepped => (operation_of_step isOperation stepped).1⟩
  obtain ⟨length, -, isValue⟩ := inv.value isMember
  rw [isValue]
  split
  · rename_i none
    rw [none] at length ⊢
    rw [List.prod_nil]
    refine condition.resolve_left ?_
    rw [← length]
    exact Nat.lt_irrefl 0
  · rfl

variable [Inhabited Thread]

omit [Fintype Thread] in
theorem exists_counted (cnt : BitVec w) (puts : Puts c flag (start w Thread α)
    (.putCount default)) :
    ∃ s : State w Thread α, Reached (system cnt) (Puts c flag) s ∧ s.items = [] ∧
      s.countPut = true :=
  ⟨_, Reached.step (.initial rfl) puts rfl, rfl, rfl⟩

variable (Thread α) in
theorem exists_early (positive : 0 < w) (inRange : InRange w c flag)
    (puts : Puts c flag (start w Thread α) (.putCount default)) :
    ∃ s : State w Thread α, Reached (system (count w c flag)) (Puts c flag) s ∧
      s.out ≠ [] ∧ s.added = c := by
  obtain ⟨counted, reachedCounted, none, isPut⟩ := exists_counted (count w c flag) puts
  obtain ⟨middle, reachedMiddle, middleIdle, sameItems, samePut⟩ :=
    completes positive inRange (free_puts c flag) reachedCounted
  have atMost : middle.items.length ≤ c := by
    rw [sameItems, none]
    exact Nat.zero_le c
  obtain ⟨s, reached, idle, all, same⟩ :=
    fills positive inRange (free_puts c flag) middleIdle atMost reachedMiddle
  have inv := inv_of_reached positive inRange reached
  have some_ := inv.out_of_idle all (same.trans (samePut.trans isPut)) idle
  exact ⟨s, reached, some_, inv.added some_⟩

variable (Thread α) in
theorem exists_last (positive : 0 < w) (more : 2 ^ w - 1 < c) :
    ∃ s : State w Thread α, Reached (system (count w c true)) (Puts c true) s ∧
      s.out ≠ [] ∧ s.added = 2 ^ w - 1 := by
  have inRange : InRange w (2 ^ w - 1) true := .inr ⟨rfl, rfl⟩
  let allowed : State w Thread α → Action Thread α → Prop := fun s action =>
    Puts (2 ^ w - 1) true s action ∧ ∀ thread, action ≠ .putCount thread
  have free : Free (2 ^ w - 1) true allowed := by
    refine ⟨fun s action isOperation => ⟨puts_of_operation isOperation, ?_⟩,
      fun s thread val room => ⟨room, fun other => by rintro ⟨⟩⟩, fun _ _ allows => allows.1⟩
    rintro thread rfl
    cases isOperation
  obtain ⟨s, reached, idle, all, -⟩ := fills (s := start w Thread α) positive inRange free
    (fun _ => rfl) (Nat.zero_le _) (.initial rfl)
  have inv := inv_of_reached positive inRange (reached.weaken free.puts)
  have isN : s.n.toNat = 2 ^ w - 1 := by
    rcases inv.putting.isN with isLast | isC
    · rw [isLast, toNat_m1]
    · exact isC
  have some_ := inv.out_of_isN all isN idle
  refine ⟨s, reached.weaken fun s action allows => ?_, some_, inv.added some_⟩
  obtain ⟨puts, notCount⟩ := allows
  cases action with
  | putItem => exact puts.trans more
  | putCount thread => exact absurd rfl (notCount thread)
  | loadReduced | loadN | run => trivial

variable (Thread α) in
theorem exists_outside (positive : 0 < w) (outside : ¬ InRange w c flag) :
    ∃ s : State w Thread α, Reached (system (count w c flag)) (Puts c flag) s ∧
      s.out ≠ [] ∧ s.added ≠ c := by
  obtain ⟨notLess, notLast⟩ := not_or.mp outside
  have atLeast : 2 ^ 1 ≤ 2 ^ w := Nat.pow_le_pow_right (by decide) positive
  cases flag with
  | true =>
      have more : 2 ^ w - 1 < c := by
        have notEqual : c ≠ 2 ^ w - 1 := fun isLast => notLast ⟨rfl, isLast⟩
        omega
      obtain ⟨s, reached, some_, added⟩ := exists_last Thread α positive more
      exact ⟨s, reached, some_, by omega⟩
  | false =>
      by_cases isLast : c % 2 ^ w = 2 ^ w - 1
      · -- the count is taken for the flag
        have sameCount : count w c false = count w 0 true := by
          refine BitVec.eq_of_toNat_eq ?_
          rw [count, if_neg Bool.false_ne_true, count, if_pos rfl, toNat_m1, BitVec.toNat_ofNat,
            isLast]
        have inRange : InRange w 0 true := .inl (by omega)
        obtain ⟨s, reached, some_, added⟩ := exists_early Thread α positive inRange
          ⟨rfl, fun _ => ⟨rfl, fun _ => rfl⟩⟩
        refine ⟨s, ?_, some_, by omega⟩
        rw [sameCount]
        refine reached.weaken fun s action allows => ?_
        cases action with
        | putItem => exact absurd allows (Nat.not_lt_zero _)
        | putCount => exact ⟨allows.1, fun impossible => absurd impossible Bool.false_ne_true⟩
        | loadReduced | loadN | run => trivial
      · -- the count has wrapped
        have less : c % 2 ^ w < 2 ^ w := Nat.mod_lt _ (Nat.two_pow_pos w)
        have fewer : c % 2 ^ w ≤ c := Nat.mod_le _ _
        have sameCount : count w c false = count w (c % 2 ^ w) false := by
          refine BitVec.eq_of_toNat_eq ?_
          rw [count, if_neg Bool.false_ne_true, count, if_neg Bool.false_ne_true,
            BitVec.toNat_ofNat, BitVec.toNat_ofNat, Nat.mod_mod]
        have inRange : InRange w (c % 2 ^ w) false := .inl (by omega)
        obtain ⟨s, reached, some_, added⟩ := exists_early Thread α positive inRange
          ⟨rfl, fun impossible => absurd impossible Bool.false_ne_true⟩
        refine ⟨s, ?_, some_, by omega⟩
        rw [sameCount]
        refine reached.weaken fun s action allows => ?_
        cases action with
        | putItem => exact Nat.lt_of_lt_of_le allows fewer
        | putCount => exact ⟨allows.1, fun impossible => absurd impossible Bool.false_ne_true⟩
        | loadReduced | loadN | run => trivial

end Invariants

end Steps

/-- A reduction of `c` items on one process puts their product once, exactly if the count type
holds the numbers of the items and there are items or the default value is the identity. -/
theorem local_reduction_iff {w : Nat} (positive : 0 < w) (Thread α : Type) [DecidableEq Thread]
    [Fintype Thread] [Inhabited Thread] [CommMonoid α] [Inhabited α] (c : Nat) (flag : Bool) :
    (∀ s : State w Thread α, Reached (system (count w c flag)) (Puts c flag) s →
        Holds c flag s) ↔
      (0 < c ∨ (default : α) = 1) ∧ InRange w c flag := by
  constructor
  · intro holds
    have inRange : InRange w c flag := by
      by_contra outside
      obtain ⟨s, reached, some_, notAll⟩ :=
        exists_outside Thread α positive outside
      exact notAll ((holds s reached).notBefore some_)
    refine ⟨?_, inRange⟩
    by_contra neither
    obtain ⟨isZero, notOne⟩ := not_or.mp neither
    obtain rfl : c = 0 := Nat.eq_zero_of_not_pos isZero
    obtain ⟨s, reached, some_, -⟩ := exists_early Thread α positive inRange
      ⟨rfl, fun _ => ⟨rfl, fun _ => rfl⟩⟩
    obtain ⟨value, isMember⟩ := List.exists_mem_of_ne_nil _ some_
    obtain ⟨length, -, isDefault⟩ := (inv_of_reached positive inRange reached).value isMember
    have noItems := List.length_eq_zero_iff.mp length
    rw [if_pos noItems] at isDefault
    have isOne := (holds s reached).value value isMember
    rw [noItems, List.prod_nil] at isOne
    exact notOne (isDefault.symm.trans isOne)
  · rintro ⟨condition, inRange⟩ s reached
    exact (inv_of_reached positive inRange reached).holds condition

def threeItems : List (Action (Fin 2) ℤ) :=
  [.putItem 0 2, .putItem 1 3, .run 0, .run 1, .run 0, .run 1, .run 0, .run 1,
    .loadReduced 0, .loadReduced 1, .loadN 1, .loadN 0, .run 1, .run 0,
    .putItem 0 5, .run 0, .run 0, .run 0, .loadReduced 0, .putCount 1, .run 1, .loadN 0, .run 0,
    .loadReduced 1, .loadN 1, .run 1, .run 1, .run 1, .run 1, .run 1, .run 1, .run 0, .run 0,
    .run 0]

/-- The product of the three items is put once, though both callbacks find the count. -/
theorem local_reduction_three : ∃ s : State 32 (Fin 2) ℤ,
    Reached (system (count 32 3 false)) (Puts 3 false) s ∧ s.out = [30] ∧ Holds 3 false s := by
  have shown : ((system (count 32 3 false)).run (Puts 3 false) (start 32 (Fin 2) ℤ)
      threeItems).map (·.out) = some [30] := rfl
  obtain ⟨s, computed, isOut⟩ := Option.map_eq_some_iff.mp shown
  have reached := Reached.run (.initial rfl) _ computed
  have inRange : InRange 32 3 false := .inl (by decide)
  exact ⟨s, reached, isOut, (local_reduction_iff (by decide) (Fin 2) ℤ 3 false).mpr
    ⟨.inl (by decide), inRange⟩ s reached⟩

def emptyReduction : List (Action Unit ℤ) :=
  [.putCount (), .run (), .loadReduced (), .loadN (), .run (), .run (), .run (), .run ()]

/-- The product of no integers is put as 0. -/
theorem local_reduction_fails :
    ¬ ∀ s : State 32 Unit ℤ, Reached (system (count 32 0 false)) (Puts 0 false) s →
      Holds 0 false s := by
  intro holds
  have reached : Reached (system (count 32 0 false)) (Puts 0 false) _ :=
    Reached.run (.initial rfl) emptyReduction rfl
  have isOne : (0 : ℤ) = List.prod [] := (holds _ reached).value 0 (List.mem_singleton_self 0)
  exact absurd isOne (by decide)

end CnC.Reduce.Local
