import CnC.Library.Amount
import CnC.Reduce.Counting

/-!
# Gathering over the tree

The counts and the values of a reduction are gathered in the same way: a message goes down the
tree, every process counts the replies which it waits for, and a process which has them all sends
its own.  While a process broadcasts, its counter is biased so that it does not reach zero.
-/

namespace CnC.Reduce

open Convergecast Network Transition

variable {n : Nat} {Thread α : Type} {owner me : Fin n} {count : Int}

/-- What a gathering is made of: the part of the log, the counter, the messages which are on their
way to and from a process, in a channel or in the hands of a thread, and the threads which
broadcast (`broadcasts`), have not sent the message yet (`unsent`), have not set the counter
(`closed`), or are about to reply (`replies`).  `bias` is what a thread which broadcasts has put on
the counter in addition. -/
structure Phase (n : Nat) (Thread α : Type) where
  part : Log n α → Part n
  counter : RedTls n Thread α → Int
  down : Fin n → Fin n → Pc n α → Nat
  downMsg : Fin n → Fin n → Fin n → Msg n α → Nat
  up : Fin n → Fin n → Pc n α → Nat
  upMsg : Fin n → Fin n → Fin n → Msg n α → Nat
  broadcasts : Pc n α → Int
  unsent : Pc n α → Int
  closed : Pc n α → Int
  bias : Nat → Pc n α → Int
  replies : Pc n α → Int
  closed_nonneg : ∀ pc, 0 ≤ closed pc
  closed_le : ∀ pc, closed pc ≤ unsent pc
  unsent_le : ∀ pc, unsent pc ≤ broadcasts pc
  replies_nonneg : ∀ pc, 0 ≤ replies pc
  bias_eq_zero : ∀ k pc, broadcasts pc = 0 → bias k pc = 0

namespace Phase

variable (phase : Phase n Thread α)

def threads (k : Nat) (pc : Pc n α) : (Int × Int) × Int × Int :=
  ((phase.broadcasts pc, phase.unsent pc), phase.closed pc, phase.bias k pc)

theorem threads_eq {k : Nat} {pc pc' : Pc n α} : phase.threads k pc = phase.threads k pc' ↔
    phase.broadcasts pc = phase.broadcasts pc' ∧ phase.unsent pc = phase.unsent pc' ∧
      phase.closed pc = phase.closed pc' ∧ phase.bias k pc = phase.bias k pc' := by
  simp [threads, and_assoc]

theorem broadcasts_nonneg (pc : Pc n α) : 0 ≤ phase.broadcasts pc :=
  (phase.closed_nonneg pc).trans ((phase.closed_le pc).trans (phase.unsent_le pc))

theorem unsent_nonneg (pc : Pc n α) : 0 ≤ phase.unsent pc :=
  (phase.closed_nonneg pc).trans (phase.closed_le pc)

end Phase

variable [Fintype Thread]

def Process.sum (process : Process n Thread α) (measure : Pc n α → Int) : Int :=
  ∑ thread, measure (process.pcs thread)

/-- The threads of a process and its counter.  The counter is `exact` if it counts nothing but the
replies, and the process `sends` a reply unless it is the root. -/
structure Process.Takes (phase : Phase n Thread α) (exact sends : Prop) (k : Nat)
    (process : Process n Thread α) : Prop where
  broadcasting : process.sum phase.broadcasts ≤ (phase.part process.log).heard.toNat
  between : ((phase.part process.log).heard.toNat : Int) =
    (phase.part process.log).sent.toNat + process.sum phase.unsent
  closed : exact → (phase.part process.log).heard = false ∨ 0 < process.sum phase.closed →
    phase.counter process.tls = -1
  atMost : (phase.part process.log).heard = true → process.sum phase.closed = 0 →
    phase.counter process.tls + (phase.part process.log).collected.card ≤
      k + process.sum (phase.bias k)
  atLeast : exact → (phase.part process.log).heard = true → process.sum phase.closed = 0 →
    k + process.sum (phase.bias k) ≤
      phase.counter process.tls + (phase.part process.log).collected.card
  fresh : sends → 0 < process.sum phase.broadcasts → (phase.part process.log).collected = ∅
  replying : sends → ((phase.part process.log).replied.toNat : Int) + process.sum phase.replies =
    if phase.counter process.tls = 0 then 1 else 0

section Threads

variable {process next : Process n Thread α} {thread : Option Thread} {pc : Pc n α}

theorem Process.sum_nonneg {measure : Pc n α → Int} (nonneg : ∀ pc, 0 ≤ measure pc)
    (process : Process n Thread α) : 0 ≤ process.sum measure :=
  Finset.sum_nonneg fun _ _ => nonneg _

theorem Process.le_sum {measure : Pc n α → Int} (nonneg : ∀ pc, 0 ≤ measure pc)
    (process : Process n Thread α) (thread : Option Thread) :
    measure (process.pcs thread) ≤ process.sum measure :=
  Finset.single_le_sum (f := fun thread => measure (process.pcs thread)) (fun _ _ => nonneg _)
    (Finset.mem_univ thread)

theorem Process.sum_le_sum {measure measure' : Pc n α → Int} (le : ∀ pc, measure pc ≤ measure' pc)
    (process : Process n Thread α) : process.sum measure ≤ process.sum measure' :=
  Finset.sum_le_sum fun _ _ => le _

theorem Process.sum_eq [DecidableEq Thread] {measure : Pc n α → Int}
    (process : Process n Thread α) (thread : Option Thread)
    (others : ∀ other, other ≠ thread → measure (process.pcs other) = 0) :
    process.sum measure = measure (process.pcs thread) :=
  Finset.sum_eq_single_of_mem thread (Finset.mem_univ thread) fun other _ => others other

theorem Process.sum_goto [DecidableEq Thread] (pcs : next.pcs = (process.goto thread pc).pcs)
    (measure : Pc n α → Int) :
    next.sum measure = process.sum measure - measure (process.pcs thread) + measure pc := by
  unfold Process.sum
  rw [pcs]
  exact CnC.Reduce.sum_goto measure process thread pc

namespace Process.Takes

variable {phase : Phase n Thread α} {exact sends : Prop} {k : Nat}

theorem closed_of_unsent (takes : process.Takes phase exact sends k)
    (sent : (phase.part process.log).sent = true) :
    (phase.part process.log).heard = true ∧ process.sum phase.closed = 0 ∧
      process.sum phase.unsent = 0 := by
  have between := takes.between
  have bound := Bool.toNat_le (phase.part process.log).heard
  have closedLe := process.sum_le_sum phase.closed_le
  have closedNonneg := process.sum_nonneg phase.closed_nonneg
  rw [sent, Bool.toNat_true] at between
  refine ⟨Bool.toNat_eq_one.mp ?_, ?_, ?_⟩ <;> omega

variable [DecidableEq Thread]

theorem alone (takes : process.Takes phase exact sends k)
    (broadcasts : phase.broadcasts (process.pcs thread) = 1) :
    (phase.part process.log).heard = true ∧
      ∀ other, other ≠ thread → phase.broadcasts (process.pcs other) = 0 := by
  have broadcasting := takes.broadcasting
  have bound := Bool.toNat_le (phase.part process.log).heard
  have split := Finset.add_sum_erase Finset.univ (fun t => phase.broadcasts (process.pcs t))
    (Finset.mem_univ thread)
  have restNonneg : 0 ≤ ∑ t ∈ Finset.univ.erase thread, phase.broadcasts (process.pcs t) :=
    Finset.sum_nonneg fun t _ => phase.broadcasts_nonneg _
  rw [Process.sum, ← split, broadcasts] at broadcasting
  refine ⟨Bool.toNat_eq_one.mp (by omega), fun other different => ?_⟩
  have le := Finset.single_le_sum (f := fun t => phase.broadcasts (process.pcs t))
    (fun t _ => phase.broadcasts_nonneg _)
    (Finset.mem_erase.mpr ⟨different, Finset.mem_univ other⟩)
  have nonneg := phase.broadcasts_nonneg (process.pcs other)
  omega

theorem sum_bias (takes : process.Takes phase exact sends k)
    (broadcasts : phase.broadcasts (process.pcs thread) = 1) :
    process.sum (phase.bias k) = phase.bias k (process.pcs thread) :=
  process.sum_eq thread fun other different =>
    phase.bias_eq_zero k _ ((takes.alone broadcasts).2 other different)

theorem sum_closed (takes : process.Takes phase exact sends k)
    (broadcasts : phase.broadcasts (process.pcs thread) = 1) :
    process.sum phase.closed = phase.closed (process.pcs thread) := by
  refine process.sum_eq thread fun other different => ?_
  have none := (takes.alone broadcasts).2 other different
  have nonneg := phase.closed_nonneg (process.pcs other)
  have closedLe := phase.closed_le (process.pcs other)
  have unsentLe := phase.unsent_le (process.pcs other)
  omega

theorem quiet (takes : process.Takes phase exact sends k)
    (pcs : next.pcs = (process.goto thread pc).pcs)
    (threads : phase.threads k pc = phase.threads k (process.pcs thread))
    (replies : sends → phase.replies pc = phase.replies (process.pcs thread))
    (part : phase.part next.log = phase.part process.log)
    (counter : phase.counter next.tls = phase.counter process.tls) :
    next.Takes phase exact sends k := by
  obtain ⟨broadcasts, unsent, closed, bias⟩ := phase.threads_eq.mp threads
  have same {measure : Pc n α → Int} (equal : measure pc = measure (process.pcs thread)) :
      next.sum measure = process.sum measure := by
    rw [Process.sum_goto pcs, equal, sub_add_cancel]
  constructor
  all_goals simp only [same broadcasts, same unsent, same closed, same bias, part, counter]
  · exact takes.broadcasting
  · exact takes.between
  · exact takes.closed
  · exact takes.atMost
  · exact takes.atLeast
  · exact takes.fresh
  · intro isSender
    rw [same (replies isSender)]
    exact takes.replying isSender

theorem hear (takes : process.Takes phase exact sends k)
    (unheard : (phase.part process.log).heard = false)
    (empty : sends → (phase.part process.log).collected = ∅)
    (pcs : next.pcs = (process.goto thread pc).pcs)
    (broadcasts : phase.broadcasts (process.pcs thread) = 0 ∧ phase.broadcasts pc = 1)
    (unsent : phase.unsent (process.pcs thread) = 0 ∧ phase.unsent pc = 1)
    (closed : phase.closed (process.pcs thread) = 0 ∧ phase.closed pc = 1)
    (replies : phase.replies pc = phase.replies (process.pcs thread))
    (part : phase.part next.log = { phase.part process.log with heard := true })
    (counter : phase.counter next.tls = phase.counter process.tls) :
    next.Takes phase exact sends k := by
  have broadcasting := takes.broadcasting
  have between := takes.between
  have closedNonneg := process.sum_nonneg phase.closed_nonneg
  rw [unheard, Bool.toNat_false] at broadcasting between
  have sumBroadcasts := Process.sum_goto pcs phase.broadcasts
  have sumUnsent := Process.sum_goto pcs phase.unsent
  have sumClosed := Process.sum_goto pcs phase.closed
  have sumReplies := Process.sum_goto pcs phase.replies
  rw [broadcasts.1, broadcasts.2] at sumBroadcasts
  rw [unsent.1, unsent.2] at sumUnsent
  rw [closed.1, closed.2] at sumClosed
  rw [replies, sub_add_cancel] at sumReplies
  constructor
  all_goals simp only [part, counter, sumReplies, Bool.toNat_true]
  · omega
  · omega
  · exact fun isExact _ => takes.closed isExact (.inl unheard)
  · omega
  · omega
  · exact fun isSender _ => empty isSender
  · exact takes.replying

theorem «open» (takes : process.Takes phase exact sends k) (isExact : sends → exact)
    (empty : (phase.part process.log).collected = ∅)
    (pcs : next.pcs = (process.goto thread pc).pcs)
    (broadcasts : phase.broadcasts (process.pcs thread) = 1 ∧ phase.broadcasts pc = 1)
    (unsent : phase.unsent pc = phase.unsent (process.pcs thread))
    (closed : phase.closed (process.pcs thread) = 1 ∧ phase.closed pc = 0)
    (replies : phase.replies pc = phase.replies (process.pcs thread))
    (part : phase.part next.log = phase.part process.log)
    (counter : phase.counter next.tls = k + phase.bias k pc) (positive : 0 < k + phase.bias k pc) :
    next.Takes phase exact sends k := by
  obtain ⟨heard, -⟩ := takes.alone broadcasts.1
  have isClosed := takes.sum_closed broadcasts.1
  have sumBroadcasts := Process.sum_goto pcs phase.broadcasts
  have sumUnsent := Process.sum_goto pcs phase.unsent
  have sumClosed := Process.sum_goto pcs phase.closed
  have sumReplies := Process.sum_goto pcs phase.replies
  have sumBias := Process.sum_goto pcs (phase.bias k)
  rw [broadcasts.1, broadcasts.2, sub_add_cancel] at sumBroadcasts
  rw [unsent, sub_add_cancel] at sumUnsent
  rw [isClosed, closed.1, closed.2] at sumClosed
  rw [replies, sub_add_cancel] at sumReplies
  rw [takes.sum_bias broadcasts.1, sub_self, zero_add] at sumBias
  constructor
  all_goals simp only [part, counter, sumBroadcasts, sumUnsent, sumReplies, sumBias, empty, heard,
    Finset.card_empty]
  · exact heard ▸ takes.broadcasting
  · exact heard ▸ takes.between
  · rintro - (impossible | impossible)
    · cases impossible
    · omega
  · omega
  · omega
  · exact fun _ _ => trivial
  · intro isSender
    have unset := takes.closed (isExact isSender) (.inr (by omega))
    have replying := takes.replying isSender
    rw [unset, if_neg (by decide)] at replying
    rw [replying, if_neg (by omega)]

omit [DecidableEq Thread] in
theorem of_unsent (takes : process.Takes phase exact sends k)
    (unsent : phase.unsent (process.pcs thread) = 1) :
    (phase.part process.log).heard = true ∧ (phase.part process.log).sent = false := by
  have between := takes.between
  have bound := Bool.toNat_le (phase.part process.log).heard
  have atLeast := process.le_sum phase.unsent_nonneg thread
  rw [← Bool.toNat_eq_one, ← Bool.toNat_eq_zero]
  omega

theorem send (takes : process.Takes phase exact sends k)
    (pcs : next.pcs = (process.goto thread pc).pcs)
    (broadcasts : phase.broadcasts pc = phase.broadcasts (process.pcs thread))
    (unsent : phase.unsent (process.pcs thread) = 1 ∧ phase.unsent pc = 0)
    (closed : phase.closed pc = phase.closed (process.pcs thread))
    (bias : phase.bias k pc = phase.bias k (process.pcs thread))
    (replies : phase.replies pc = phase.replies (process.pcs thread))
    (part : phase.part next.log = { phase.part process.log with sent := true })
    (counter : phase.counter next.tls = phase.counter process.tls) :
    next.Takes phase exact sends k := by
  have between := takes.between
  have same {measure : Pc n α → Int} (equal : measure pc = measure (process.pcs thread)) :
      next.sum measure = process.sum measure := by
    rw [Process.sum_goto pcs, equal, sub_add_cancel]
  have sumUnsent := Process.sum_goto pcs phase.unsent
  rw [unsent.1, unsent.2] at sumUnsent
  rw [(takes.of_unsent unsent.1).2, Bool.toNat_false] at between
  constructor
  all_goals simp only [same broadcasts, same closed, same bias, same replies, part, counter,
    Bool.toNat_true]
  · exact takes.broadcasting
  · omega
  · exact takes.closed
  · exact takes.atMost
  · exact takes.atLeast
  · exact takes.fresh
  · exact takes.replying

theorem adjust (takes : process.Takes phase exact sends k) (isExact : sends → exact) {change : Int}
    (pcs : next.pcs = (process.goto thread pc).pcs)
    (broadcasts : phase.broadcasts (process.pcs thread) = 1 ∧ phase.broadcasts pc = 1)
    (unsent : phase.unsent pc = phase.unsent (process.pcs thread))
    (closed : phase.closed (process.pcs thread) = 0 ∧ phase.closed pc = 0)
    (bias : phase.bias k pc = phase.bias k (process.pcs thread) + change)
    (replies : phase.replies pc = phase.replies (process.pcs thread))
    (part : phase.part next.log = phase.part process.log)
    (counter : phase.counter next.tls = phase.counter process.tls + change)
    (positive : 0 < k + phase.bias k (process.pcs thread) ∧ 0 < k + phase.bias k pc) :
    next.Takes phase exact sends k := by
  obtain ⟨heard, -⟩ := takes.alone broadcasts.1
  have isOpen := takes.sum_closed broadcasts.1
  have isBias := takes.sum_bias broadcasts.1
  have sumBroadcasts := Process.sum_goto pcs phase.broadcasts
  have sumUnsent := Process.sum_goto pcs phase.unsent
  have sumClosed := Process.sum_goto pcs phase.closed
  have sumReplies := Process.sum_goto pcs phase.replies
  have sumBias := Process.sum_goto pcs (phase.bias k)
  have atMost := takes.atMost heard (isOpen.trans closed.1)
  rw [broadcasts.1, broadcasts.2, sub_add_cancel] at sumBroadcasts
  rw [unsent, sub_add_cancel] at sumUnsent
  rw [closed.1, closed.2, sub_zero, add_zero] at sumClosed
  rw [replies, sub_add_cancel] at sumReplies
  constructor
  all_goals simp only [part, counter, sumBroadcasts, sumUnsent, sumClosed, sumReplies]
  · exact takes.broadcasting
  · exact takes.between
  · rw [isOpen, closed.1, heard]
    exact fun _ impossible => absurd impossible (by decide)
  · omega
  · intro exactly _ _
    have atLeast := takes.atLeast exactly heard (isOpen.trans closed.1)
    omega
  · exact takes.fresh
  · intro isSender
    have replying := takes.replying isSender
    have atLeast := takes.atLeast (isExact isSender) heard (isOpen.trans closed.1)
    have some_ := process.le_sum phase.broadcasts_nonneg thread
    rw [takes.fresh isSender (by omega), Finset.card_empty] at atMost atLeast
    rw [if_neg (by omega)] at replying ⊢
    exact replying

theorem release (takes : process.Takes phase exact sends k) (isExact : sends → exact)
    (pcs : next.pcs = (process.goto thread pc).pcs)
    (broadcasts : phase.broadcasts (process.pcs thread) = 1 ∧ phase.broadcasts pc = 0)
    (unsent : phase.unsent (process.pcs thread) = 0 ∧ phase.unsent pc = 0)
    (closed : phase.closed (process.pcs thread) = 0 ∧ phase.closed pc = 0)
    (bias : phase.bias k (process.pcs thread) = 1)
    (replies : sends → phase.replies (process.pcs thread) = 0 ∧
      phase.replies pc = if phase.counter process.tls = 1 then 1 else 0)
    (part : phase.part next.log = phase.part process.log)
    (counter : phase.counter next.tls = phase.counter process.tls - 1) :
    next.Takes phase exact sends k := by
  obtain ⟨heard, -⟩ := takes.alone broadcasts.1
  have isOpen := (takes.sum_closed broadcasts.1).trans closed.1
  have isBias := (takes.sum_bias broadcasts.1).trans bias
  have sumBroadcasts := Process.sum_goto pcs phase.broadcasts
  have sumUnsent := Process.sum_goto pcs phase.unsent
  have sumClosed := Process.sum_goto pcs phase.closed
  have sumReplies := Process.sum_goto pcs phase.replies
  have sumBias := Process.sum_goto pcs (phase.bias k)
  have atMost := takes.atMost heard isOpen
  rw [broadcasts.1, broadcasts.2] at sumBroadcasts
  rw [unsent.1, unsent.2, sub_zero, add_zero] at sumUnsent
  rw [closed.1, closed.2, sub_zero, add_zero, isOpen] at sumClosed
  rw [isBias, bias, phase.bias_eq_zero k pc broadcasts.2] at sumBias
  have broadcasting := takes.broadcasting
  rw [heard, Bool.toNat_true] at broadcasting
  constructor
  all_goals simp only [part, counter, sumUnsent, sumClosed]
  · rw [heard, Bool.toNat_true]
    omega
  · exact takes.between
  · rw [heard]
    exact fun _ impossible => absurd impossible (by decide)
  · omega
  · intro exactly _ _
    have atLeast := takes.atLeast exactly heard isOpen
    omega
  · omega
  · intro isSender
    have replying := takes.replying isSender
    have atLeast := takes.atLeast (isExact isSender) heard isOpen
    have some_ := process.le_sum phase.broadcasts_nonneg thread
    rw [takes.fresh isSender (by omega), Finset.card_empty] at atMost atLeast
    rw [(replies isSender).1, (replies isSender).2] at sumReplies
    rw [if_neg (by omega)] at replying
    split <;> split at sumReplies <;> omega

theorem collect (takes : process.Takes phase exact sends k) (isExact : sends → exact)
    {source : Fin n} (sent : (phase.part process.log).sent = true)
    (uncollected : source ∉ (phase.part process.log).collected)
    (room : (phase.part process.log).collected.card < k)
    (quiet : sends → process.sum phase.broadcasts = 0)
    (pcs : next.pcs = (process.goto thread pc).pcs)
    (broadcasts : phase.broadcasts (process.pcs thread) = 0 ∧ phase.broadcasts pc = 0)
    (unsent : phase.unsent (process.pcs thread) = 0 ∧ phase.unsent pc = 0)
    (closed : phase.closed (process.pcs thread) = 0 ∧ phase.closed pc = 0)
    (replies : sends → phase.replies (process.pcs thread) = 0 ∧
      (0 < phase.counter process.tls →
        phase.replies pc = if phase.counter process.tls = 1 then 1 else 0))
    (part : phase.part next.log = { phase.part process.log with
      collected := insert source (phase.part process.log).collected })
    (counter : phase.counter next.tls = phase.counter process.tls - 1) :
    next.Takes phase exact sends k := by
  obtain ⟨heard, isOpen, -⟩ := takes.closed_of_unsent sent
  have atMost := takes.atMost heard isOpen
  have sumBroadcasts := Process.sum_goto pcs phase.broadcasts
  have sumUnsent := Process.sum_goto pcs phase.unsent
  have sumClosed := Process.sum_goto pcs phase.closed
  have sumReplies := Process.sum_goto pcs phase.replies
  have sumBias := Process.sum_goto pcs (phase.bias k)
  rw [broadcasts.1, broadcasts.2, sub_zero, add_zero] at sumBroadcasts
  rw [unsent.1, unsent.2, sub_zero, add_zero] at sumUnsent
  rw [closed.1, closed.2, sub_zero, add_zero, isOpen] at sumClosed
  rw [phase.bias_eq_zero k _ broadcasts.1, phase.bias_eq_zero k pc broadcasts.2, sub_zero,
    add_zero] at sumBias
  have more := Finset.card_insert_of_notMem uncollected
  constructor
  all_goals simp only [part, counter, sumBroadcasts, sumUnsent, sumClosed, sumBias, more]
  · exact takes.broadcasting
  · exact takes.between
  · rw [heard]
    exact fun _ impossible => absurd impossible (by decide)
  · omega
  · intro exactly _ _
    have atLeast := takes.atLeast exactly heard isOpen
    omega
  · exact fun isSender impossible => absurd (quiet isSender) impossible.ne'
  · intro isSender
    have replying := takes.replying isSender
    have atLeast := takes.atLeast (isExact isSender) heard isOpen
    have unbiased : process.sum (phase.bias k) = 0 := by
      refine Finset.sum_eq_zero fun other _ => phase.bias_eq_zero k _ ?_
      have le := process.le_sum phase.broadcasts_nonneg other
      have nonneg := phase.broadcasts_nonneg (process.pcs other)
      have none := quiet isSender
      omega
    rw [(replies isSender).1, (replies isSender).2 (by omega)] at sumReplies
    rw [if_neg (by omega)] at replying
    split <;> split at sumReplies <;> omega

theorem extra (takes : process.Takes phase exact sends k) (notExact : ¬ exact) (root : ¬ sends)
    (pcs : next.pcs = (process.goto thread pc).pcs)
    (threads : phase.threads k pc = phase.threads k (process.pcs thread))
    (part : phase.part next.log = phase.part process.log)
    (counter : phase.counter next.tls ≤ phase.counter process.tls) :
    next.Takes phase exact sends k := by
  obtain ⟨broadcasts, unsent, closed, bias⟩ := phase.threads_eq.mp threads
  have same {measure : Pc n α → Int} (equal : measure pc = measure (process.pcs thread)) :
      next.sum measure = process.sum measure := by
    rw [Process.sum_goto pcs, equal, sub_add_cancel]
  constructor
  all_goals simp only [same broadcasts, same unsent, same closed, same bias, part]
  · exact takes.broadcasting
  · exact takes.between
  · exact fun isExact => absurd isExact notExact
  · intro heard isOpen
    have atMost := takes.atMost heard isOpen
    omega
  · exact fun isExact => absurd isExact notExact
  · exact takes.fresh
  · exact fun isSender => absurd isSender root

omit [DecidableEq Thread] in
theorem of_replies (takes : process.Takes phase exact sends k) (isExact : sends → exact)
    (isSender : sends) (quiet : process.sum phase.broadcasts = 0)
    (replies : phase.replies (process.pcs thread) = 1) :
    (phase.part process.log).sent = true ∧ (phase.part process.log).replied = false ∧
      (phase.part process.log).collected.card = k ∧ phase.counter process.tls = 0 := by
  have replying := takes.replying isSender
  have atLeastOne := process.le_sum phase.replies_nonneg thread
  have isZero : phase.counter process.tls = 0 := by
    by_contra notZero
    rw [if_neg notZero] at replying
    omega
  have closedLe := process.sum_le_sum phase.closed_le
  have unsentLe := process.sum_le_sum phase.unsent_le
  have closedNonneg := process.sum_nonneg phase.closed_nonneg
  have isOpen : process.sum phase.closed = 0 := by omega
  have heard : (phase.part process.log).heard = true := by
    by_contra unheard
    have unset := takes.closed (isExact isSender) (.inl (Bool.eq_false_iff.mpr unheard))
    omega
  have unbiased : process.sum (phase.bias k) = 0 := by
    refine Finset.sum_eq_zero fun other _ => phase.bias_eq_zero k _ ?_
    have le := process.le_sum phase.broadcasts_nonneg other
    have nonneg := phase.broadcasts_nonneg (process.pcs other)
    omega
  have atMost := takes.atMost heard isOpen
  have atLeast := takes.atLeast (isExact isSender) heard isOpen
  have between := takes.between
  rw [if_pos isZero] at replying
  rw [heard, Bool.toNat_true] at between
  rw [← Bool.toNat_eq_one, ← Bool.toNat_eq_zero]
  omega

theorem reply (takes : process.Takes phase exact sends k) (isExact : sends → exact)
    (isSender : sends) (quiet : process.sum phase.broadcasts = 0)
    (pcs : next.pcs = (process.goto thread pc).pcs)
    (threads : phase.threads k pc = phase.threads k (process.pcs thread))
    (replies : phase.replies (process.pcs thread) = 1 ∧ phase.replies pc = 0)
    (part : phase.part next.log = { phase.part process.log with replied := true })
    (counter : phase.counter next.tls = phase.counter process.tls) :
    next.Takes phase exact sends k := by
  obtain ⟨broadcasts, unsent, closed, bias⟩ := phase.threads_eq.mp threads
  have same {measure : Pc n α → Int} (equal : measure pc = measure (process.pcs thread)) :
      next.sum measure = process.sum measure := by
    rw [Process.sum_goto pcs, equal, sub_add_cancel]
  obtain ⟨-, unreplied, -, isZero⟩ := takes.of_replies isExact isSender quiet replies.1
  have replying := takes.replying isSender
  have sumReplies := Process.sum_goto pcs phase.replies
  rw [replies.1, replies.2] at sumReplies
  rw [unreplied, Bool.toNat_false, if_pos isZero] at replying
  constructor
  all_goals simp only [same broadcasts, same unsent, same closed, same bias, part, counter]
  · exact takes.broadcasting
  · exact takes.between
  · exact takes.closed
  · exact takes.atMost
  · exact takes.atLeast
  · exact takes.fresh
  · intro _
    rw [if_pos isZero, Bool.toNat_true]
    omega

end Process.Takes

theorem takes_start [One α] {phase : Phase n Thread α} {exact sends : Prop} {k : Nat}
    (part : phase.part (Process.start : Process n Thread α).log = ⟨false, false, false, ∅⟩)
    (counter : phase.counter (Process.start : Process n Thread α).tls = -1)
    (threads : phase.threads k .idle = ((0, 0), 0, 0)) (replies : phase.replies .idle = 0) :
    (Process.start : Process n Thread α).Takes phase exact sends k := by
  have none {measure : Pc n α → Int} (nothing : measure .idle = 0) :
      (Process.start : Process n Thread α).sum measure = 0 :=
    Finset.sum_eq_zero fun _ _ => nothing
  simp only [Phase.threads, Prod.mk.injEq] at threads
  obtain ⟨⟨broadcasts, unsent⟩, -, -⟩ := threads
  constructor
  all_goals simp [part, counter, none broadcasts, none unsent, none replies]

end Threads

section States

variable {s : State n Thread α} {pid : Fin n} {process : Process n Thread α}
  {thread : Option Thread} {pc : Pc n α}

def State.flow (s : State n Thread α) (onPc : Fin n → Pc n α → Nat)
    (onMsg : Fin n → Fin n → Msg n α → Nat) : Nat :=
  amount (fun pid (process : Process n Thread α) => ∑ thread, onPc pid (process.pcs thread)) onMsg
    s.proc s.chan

theorem State.flow_eq_zero (idle : s.Idle) (empty : s.chan.Empty)
    {onPc : Fin n → Pc n α → Nat} (nothing : ∀ pid, onPc pid .idle = 0)
    (onMsg : Fin n → Fin n → Msg n α → Nat) : s.flow onPc onMsg = 0 :=
  amount_eq_zero (fun pid => Finset.sum_eq_zero fun thread _ => by rw [idle, nothing]) empty

theorem State.flow_pos {onPc : Fin n → Pc n α → Nat}
    (some_ : 0 < onPc pid ((s.proc pid).pcs thread))
    (onMsg : Fin n → Fin n → Msg n α → Nat) : 0 < s.flow onPc onMsg := by
  have inProcess : onPc pid ((s.proc pid).pcs thread) ≤
      ∑ thread, onPc pid ((s.proc pid).pcs thread) :=
    Finset.single_le_sum (f := fun thread => onPc pid ((s.proc pid).pcs thread))
      (fun _ _ => Nat.zero_le _) (Finset.mem_univ thread)
  exact some_.trans_le (inProcess.trans (le_amount (fun pid (process : Process n Thread α) =>
    ∑ thread, onPc pid (process.pcs thread)) onMsg s.proc s.chan pid))

theorem State.flow_two {other : Option Thread} (different : thread ≠ other)
    (onPc : Fin n → Pc n α → Nat) (onMsg : Fin n → Fin n → Msg n α → Nat) :
    onPc pid ((s.proc pid).pcs thread) + onPc pid ((s.proc pid).pcs other) ≤
      s.flow onPc onMsg := by
  classical
  have inProcess : onPc pid ((s.proc pid).pcs thread) + onPc pid ((s.proc pid).pcs other) ≤
      ∑ thread, onPc pid ((s.proc pid).pcs thread) := by
    rw [← Finset.sum_pair different (f := fun thread => onPc pid ((s.proc pid).pcs thread))]
    exact Finset.sum_le_sum_of_subset (Finset.subset_univ _)
  exact inProcess.trans (le_amount (fun pid (process : Process n Thread α) =>
    ∑ thread, onPc pid (process.pcs thread)) onMsg s.proc s.chan pid)

theorem State.flow_pos_of_mem {i j : Fin n} {message : Msg n α} (arrived : message ∈ s.chan i j)
    (onPc : Fin n → Pc n α → Nat) {onMsg : Fin n → Fin n → Msg n α → Nat}
    (some_ : 0 < onMsg i j message) : 0 < s.flow onPc onMsg :=
  some_.trans_le (le_amount_of_mem _ onMsg s.proc arrived)

variable [DecidableEq Thread]

omit [DecidableEq Thread] in
theorem sum_pcs [DecidableEq Thread] (pcs : process.pcs = ((s.proc pid).goto thread pc).pcs)
    (measure : Pc n α → Nat) :
    ∑ t, measure (process.pcs t) + measure ((s.proc pid).pcs thread) =
      ∑ t, measure ((s.proc pid).pcs t) + measure pc := by
  obtain ⟨rest, split⟩ := exists_rest_sum (fun _ => measure) (s.proc pid).pcs thread
  have before := split ((s.proc pid).pcs thread)
  have after := split pc
  rw [Function.update_eq_self] at before
  rw [pcs]
  change ∑ t, measure (Function.update (s.proc pid).pcs thread pc t) + _ = _
  omega

theorem State.flow_run (pcs : process.pcs = ((s.proc pid).goto thread pc).pcs)
    (sent : List (Fin n × Msg n α)) (onPc : Fin n → Pc n α → Nat)
    (onMsg : Fin n → Fin n → Msg n α → Nat) :
    State.flow { s.setProc pid process with chan := s.chan.send pid sent } onPc onMsg +
        onPc pid ((s.proc pid).pcs thread) =
      s.flow onPc onMsg + onPc pid pc +
        (sent.map fun pair => onMsg pid pair.1 pair.2).sum := by
  have threads := sum_pcs pcs (onPc pid)
  obtain ⟨rest, split⟩ := exists_rest_apply
    (fun pid (process : Process n Thread α) => ∑ thread, onPc pid (process.pcs thread)) onMsg
    s.proc s.chan pid
  have before := split (s.proc pid) []
  have after := split process sent
  rw [Function.update_eq_self, Channels.send_nil, List.map_nil, List.sum_nil] at before
  change amount _ _ (Function.update s.proc pid process) (s.chan.send pid sent) + _ =
    amount _ _ s.proc s.chan + _ + _
  omega

theorem State.flow_change (pcs : process.pcs = ((s.proc pid).goto thread pc).pcs)
    {sent : List (Fin n × Msg n α)} {onPc : Fin n → Pc n α → Nat}
    {onMsg : Fin n → Fin n → Msg n α → Nat} (lost gained : Nat)
    (change : onPc pid pc + (sent.map fun pair => onMsg pid pair.1 pair.2).sum + lost =
      onPc pid ((s.proc pid).pcs thread) + gained) :
    State.flow { s.setProc pid process with chan := s.chan.send pid sent } onPc onMsg + lost =
      s.flow onPc onMsg + gained := by
  have after := State.flow_run pcs sent onPc onMsg
  omega

theorem State.flow_receive {source target : Fin n} {message : Msg n α} {rest : List (Msg n α)}
    (head : s.chan source target = message :: rest)
    (pcs : process.pcs = ((s.proc target).goto thread pc).pcs)
    (onPc : Fin n → Pc n α → Nat) (onMsg : Fin n → Fin n → Msg n α → Nat) :
    State.flow { s.setProc target process with chan := s.chan.setQueue source target rest }
        onPc onMsg + onPc target ((s.proc target).pcs thread) + onMsg source target message =
      s.flow onPc onMsg + onPc target pc := by
  have threads := sum_pcs pcs (onPc target)
  obtain ⟨others, before, split⟩ := exists_rest_take
    (fun pid (process : Process n Thread α) => ∑ thread, onPc pid (process.pcs thread)) onMsg
    s.proc head
  have after := split process
  change amount _ _ (Function.update s.proc target process)
    (s.chan.setQueue source target rest) + _ + _ = amount _ _ s.proc s.chan + _
  omega

theorem State.flow_take {source : Fin n} {message : Msg n α} {rest : List (Msg n α)}
    (head : s.chan source pid = message :: rest)
    (pcs : process.pcs = ((s.proc pid).goto thread pc).pcs) {onPc : Fin n → Pc n α → Nat}
    {onMsg : Fin n → Fin n → Msg n α → Nat} (lost : Nat)
    (change : onPc pid pc + lost =
      onPc pid ((s.proc pid).pcs thread) + onMsg source pid message) :
    State.flow { s.setProc pid process with chan := s.chan.setQueue source pid rest } onPc onMsg +
      lost = s.flow onPc onMsg := by
  have after := State.flow_receive head pcs onPc onMsg
  omega

omit [Fintype Thread] [DecidableEq Thread] in
theorem sum_receivers_zero (measure : Fin n → Msg n α → Nat) (receivers : List (Fin n))
    (message : Msg n α) (nothing : ∀ r, measure r message = 0) :
    ((receivers.map fun receiver => (receiver, message)).map fun pair =>
      measure pair.1 pair.2).sum = 0 := by
  refine List.sum_eq_zero fun value listed => ?_
  obtain ⟨pair, isPair, rfl⟩ := List.mem_map.mp listed
  obtain ⟨receiver, -, rfl⟩ := List.mem_map.mp isPair
  exact nothing receiver

omit [Fintype Thread] [DecidableEq Thread] in
theorem sum_receivers (measure : Fin n → Msg n α → Nat) (receivers : List (Fin n))
    (message : Msg n α) {q : Fin n} (one : ∀ r, measure r message = if r = q then 1 else 0) :
    ((receivers.map fun receiver => (receiver, message)).map fun pair =>
      measure pair.1 pair.2).sum = receivers.count q := by
  induction receivers with
  | nil => rfl
  | cons receiver rest inductionHypothesis =>
      simp only [List.map_cons, List.sum_cons, inductionHypothesis, one, List.count_cons,
        beq_iff_eq]
      omega

namespace Phase

variable (phase : Phase n Thread α)

def downs (s : State n Thread α) (q : Fin n) : Nat := s.flow (phase.down q) (phase.downMsg q)

def ups (s : State n Thread α) (q : Fin n) : Nat := s.flow (phase.up q) (phase.upMsg q)

def wave (s : State n Thread α) : Wave (Fin n) where
  heard p := (phase.part (s.proc p).log).heard
  sent p := (phase.part (s.proc p).log).sent
  replied p := (phase.part (s.proc p).log).replied
  collected p := (phase.part (s.proc p).log).collected

def Gathers (owner : Fin n) (s : State n Thread α) : Prop :=
  Sound (tree owner) (phase.wave s) (phase.downs s) (phase.ups s)

variable {phase} {chan : Channels (Fin n) (Msg n α)} {part : Part n}

omit [Fintype Thread] [DecidableEq Thread] in
theorem wave_setProc (isPart : phase.part process.log = part) :
    phase.wave { s.setProc pid process with chan := chan } =
      { heard := Function.update (phase.wave s).heard pid part.heard
        sent := Function.update (phase.wave s).sent pid part.sent
        replied := Function.update (phase.wave s).replied pid part.replied
        collected := Function.update (phase.wave s).collected pid part.collected } := by
  have at_ {β : Type} (field : Part n → β) :
      (fun p => field (phase.part (Function.update s.proc pid process p).log)) =
        Function.update (fun p => field (phase.part (s.proc p).log)) pid (field part) := by
    funext p
    by_cases same : p = pid
    · subst same
      simp [isPart]
    · simp [same]
  simp only [wave, State.setProc, at_]

omit [DecidableEq Thread] in
theorem gathers_of_sound {next : State n Thread α} {wave : Wave (Fin n)} {down up : Fin n → Nat}
    (isWave : phase.wave next = wave) (sound : Sound (tree owner) wave down up)
    (downs : ∀ q, q ≠ owner → phase.downs next q = down q)
    (ups : ∀ q, q ≠ owner → phase.ups next q = up q) : phase.Gathers owner next := by
  unfold Phase.Gathers
  rw [isWave]
  refine ⟨fun q notRoot => ?_, fun q notRoot => ?_, sound.sent, sound.replied, sound.collected⟩
  · rw [downs q notRoot]
    exact sound.down q notRoot
  · rw [ups q notRoot]
    exact sound.up q notRoot

namespace Gathers

variable (gathers : phase.Gathers owner s)

include gathers

omit [DecidableEq Thread]

theorem keep (isPart : phase.part process.log = phase.part (s.proc pid).log)
    (downs : ∀ q, q ≠ owner →
      phase.downs { s.setProc pid process with chan := chan } q = phase.downs s q)
    (ups : ∀ q, q ≠ owner →
      phase.ups { s.setProc pid process with chan := chan } q = phase.ups s q) :
    phase.Gathers owner { s.setProc pid process with chan := chan } := by
  refine gathers_of_sound ((wave_setProc isPart).trans ?_) gathers downs ups
  simp [wave]

theorem start (isPart : phase.part process.log =
      { phase.part (s.proc owner).log with heard := true })
    (downs : ∀ q, q ≠ owner →
      phase.downs { s.setProc owner process with chan := chan } q = phase.downs s q)
    (ups : ∀ q, q ≠ owner →
      phase.ups { s.setProc owner process with chan := chan } q = phase.ups s q) :
    phase.Gathers owner { s.setProc owner process with chan := chan } := by
  refine gathers_of_sound ((wave_setProc isPart).trans ?_) (Sound.start gathers) downs ups
  simp [wave, tree]

theorem hear (notRoot : pid ≠ owner)
    (isPart : phase.part process.log = { phase.part (s.proc pid).log with heard := true })
    (downs : ∀ q, q ≠ owner → phase.downs { s.setProc pid process with chan := chan } q +
      (if pid = q then 1 else 0) = phase.downs s q)
    (ups : ∀ q, q ≠ owner →
      phase.ups { s.setProc pid process with chan := chan } q = phase.ups s q) :
    phase.Gathers owner { s.setProc pid process with chan := chan } := by
  refine gathers_of_sound ((wave_setProc isPart).trans ?_)
    (Sound.hear gathers notRoot ?_ fun r different notRoot' => ?_) (fun _ _ => rfl) ups
  · simp [wave]
  · have here := downs pid notRoot
    rw [if_pos rfl] at here
    exact here.symm
  · have there := downs r notRoot'
    rwa [if_neg (Ne.symm different), add_zero] at there

theorem forward (heard : (phase.part (s.proc pid).log).heard = true)
    (unsent : (phase.part (s.proc pid).log).sent = false)
    (isPart : phase.part process.log = { phase.part (s.proc pid).log with sent := true })
    (downs : ∀ q, q ≠ owner → phase.downs { s.setProc pid process with chan := chan } q =
      phase.downs s q + (bcast owner pid).count q)
    (ups : ∀ q, q ≠ owner →
      phase.ups { s.setProc pid process with chan := chan } q = phase.ups s q) :
    phase.Gathers owner { s.setProc pid process with chan := chan } := by
  refine gathers_of_sound ((wave_setProc isPart).trans ?_)
    (Sound.forward gathers heard unsent fun q notRoot => ?_)
    (fun _ _ => rfl) ups
  · simp [wave]
  · rw [downs q notRoot, count_bcast]

theorem children_of_card
    (all : (phase.part (s.proc pid).log).collected.card = (bcast owner pid).length) :
    (phase.part (s.proc pid).log).collected = (tree owner).children pid :=
  Finset.eq_of_subset_of_card_le (gathers.collected pid)
    ((List.toFinset_card_of_nodup (nodup_bcast owner pid)).trans all.symm).le

theorem reply (notRoot : pid ≠ owner) (sent : (phase.part (s.proc pid).log).sent = true)
    (unreplied : (phase.part (s.proc pid).log).replied = false)
    (all : (phase.part (s.proc pid).log).collected.card = (bcast owner pid).length)
    (isPart : phase.part process.log = { phase.part (s.proc pid).log with replied := true })
    (downs : ∀ q, q ≠ owner →
      phase.downs { s.setProc pid process with chan := chan } q = phase.downs s q)
    (ups : ∀ q, q ≠ owner → phase.ups { s.setProc pid process with chan := chan } q =
      phase.ups s q + if pid = q then 1 else 0) :
    phase.Gathers owner { s.setProc pid process with chan := chan } := by
  have isAll := gathers.children_of_card all
  refine gathers_of_sound ((wave_setProc isPart).trans ?_)
    (Sound.reply gathers notRoot sent unreplied isAll ?_
      fun r different notRoot' => ?_) downs fun _ _ => rfl
  · simp [wave]
  · rw [ups pid notRoot, if_pos rfl]
  · rw [ups r notRoot', if_neg (Ne.symm different), add_zero]

theorem collect {source : Fin n} (replies : Replies owner source pid)
    (isPart : phase.part process.log = { phase.part (s.proc pid).log with
      collected := insert source (phase.part (s.proc pid).log).collected })
    (downs : ∀ q, q ≠ owner →
      phase.downs { s.setProc pid process with chan := chan } q = phase.downs s q)
    (ups : ∀ q, q ≠ owner → phase.ups { s.setProc pid process with chan := chan } q +
      (if source = q then 1 else 0) = phase.ups s q) :
    phase.Gathers owner { s.setProc pid process with chan := chan } := by
  obtain ⟨notRoot, rfl⟩ := replies
  refine gathers_of_sound ((wave_setProc isPart).trans ?_)
    (Sound.collect gathers notRoot ?_ fun r different notRoot' => ?_) downs fun _ _ => rfl
  · simp [wave, tree]
  · have here := ups source notRoot
    rw [if_pos rfl] at here
    exact here.symm
  · have there := ups r notRoot'
    rwa [if_neg (Ne.symm different), add_zero] at there

section Run

variable [DecidableEq Thread] {sent : List (Fin n × Msg n α)}
  (pcs : process.pcs = ((s.proc pid).goto thread pc).pcs)

include pcs

theorem keepRun (isPart : phase.part process.log = phase.part (s.proc pid).log)
    (down : ∀ q, q ≠ owner → phase.down q pid pc +
        (sent.map fun pair => phase.downMsg q pid pair.1 pair.2).sum =
      phase.down q pid ((s.proc pid).pcs thread))
    (up : ∀ q, q ≠ owner → phase.up q pid pc +
        (sent.map fun pair => phase.upMsg q pid pair.1 pair.2).sum =
      phase.up q pid ((s.proc pid).pcs thread)) :
    phase.Gathers owner { s.setProc pid process with chan := s.chan.send pid sent } :=
  gathers.keep isPart (fun q notRoot => State.flow_change pcs 0 0 (down q notRoot))
    fun q notRoot => State.flow_change pcs 0 0 (up q notRoot)

theorem startRun (isRoot : pid = owner)
    (isPart : phase.part process.log = { phase.part (s.proc pid).log with heard := true })
    (down : ∀ q, q ≠ owner → phase.down q pid pc +
        (sent.map fun pair => phase.downMsg q pid pair.1 pair.2).sum =
      phase.down q pid ((s.proc pid).pcs thread))
    (up : ∀ q, q ≠ owner → phase.up q pid pc +
        (sent.map fun pair => phase.upMsg q pid pair.1 pair.2).sum =
      phase.up q pid ((s.proc pid).pcs thread)) :
    phase.Gathers owner { s.setProc pid process with chan := s.chan.send pid sent } := by
  subst isRoot
  exact gathers.start isPart (fun q notRoot => State.flow_change pcs 0 0 (down q notRoot))
    fun q notRoot => State.flow_change pcs 0 0 (up q notRoot)

theorem hearRun (notRoot : pid ≠ owner)
    (isPart : phase.part process.log = { phase.part (s.proc pid).log with heard := true })
    (down : ∀ q, q ≠ owner → phase.down q pid pc +
        (sent.map fun pair => phase.downMsg q pid pair.1 pair.2).sum +
      (if pid = q then 1 else 0) = phase.down q pid ((s.proc pid).pcs thread))
    (up : ∀ q, q ≠ owner → phase.up q pid pc +
        (sent.map fun pair => phase.upMsg q pid pair.1 pair.2).sum =
      phase.up q pid ((s.proc pid).pcs thread)) :
    phase.Gathers owner { s.setProc pid process with chan := s.chan.send pid sent } :=
  gathers.hear notRoot isPart (fun q notRoot => State.flow_change pcs _ 0 (down q notRoot))
    fun q notRoot => State.flow_change pcs 0 0 (up q notRoot)

theorem forwardRun (heard : (phase.part (s.proc pid).log).heard = true)
    (unsent : (phase.part (s.proc pid).log).sent = false)
    (isPart : phase.part process.log = { phase.part (s.proc pid).log with sent := true })
    (down : ∀ q, q ≠ owner → phase.down q pid pc +
        (sent.map fun pair => phase.downMsg q pid pair.1 pair.2).sum =
      phase.down q pid ((s.proc pid).pcs thread) + (bcast owner pid).count q)
    (up : ∀ q, q ≠ owner → phase.up q pid pc +
        (sent.map fun pair => phase.upMsg q pid pair.1 pair.2).sum =
      phase.up q pid ((s.proc pid).pcs thread)) :
    phase.Gathers owner { s.setProc pid process with chan := s.chan.send pid sent } :=
  gathers.forward heard unsent isPart (fun q notRoot => State.flow_change pcs 0 _ (down q notRoot))
    fun q notRoot => State.flow_change pcs 0 0 (up q notRoot)

theorem replyRun (notRoot : pid ≠ owner) (isSent : (phase.part (s.proc pid).log).sent = true)
    (unreplied : (phase.part (s.proc pid).log).replied = false)
    (all : (phase.part (s.proc pid).log).collected.card = (bcast owner pid).length)
    (isPart : phase.part process.log = { phase.part (s.proc pid).log with replied := true })
    (down : ∀ q, q ≠ owner → phase.down q pid pc +
        (sent.map fun pair => phase.downMsg q pid pair.1 pair.2).sum =
      phase.down q pid ((s.proc pid).pcs thread))
    (up : ∀ q, q ≠ owner → phase.up q pid pc +
        (sent.map fun pair => phase.upMsg q pid pair.1 pair.2).sum =
      phase.up q pid ((s.proc pid).pcs thread) + if pid = q then 1 else 0) :
    phase.Gathers owner { s.setProc pid process with chan := s.chan.send pid sent } :=
  gathers.reply notRoot isSent unreplied all isPart
    (fun q notRoot => State.flow_change pcs 0 0 (down q notRoot))
    fun q notRoot => State.flow_change pcs 0 _ (up q notRoot)

theorem collectRun {source : Fin n} (replies : Replies owner source pid)
    (isPart : phase.part process.log = { phase.part (s.proc pid).log with
      collected := insert source (phase.part (s.proc pid).log).collected })
    (down : ∀ q, q ≠ owner → phase.down q pid pc +
        (sent.map fun pair => phase.downMsg q pid pair.1 pair.2).sum =
      phase.down q pid ((s.proc pid).pcs thread))
    (up : ∀ q, q ≠ owner → phase.up q pid pc +
        (sent.map fun pair => phase.upMsg q pid pair.1 pair.2).sum +
      (if source = q then 1 else 0) = phase.up q pid ((s.proc pid).pcs thread)) :
    phase.Gathers owner { s.setProc pid process with chan := s.chan.send pid sent } :=
  gathers.collect replies isPart (fun q notRoot => State.flow_change pcs 0 0 (down q notRoot))
    fun q notRoot => State.flow_change pcs _ 0 (up q notRoot)

theorem keepUpdate (isPart : phase.part process.log = phase.part (s.proc pid).log)
    (down : ∀ q, q ≠ owner → phase.down q pid pc = phase.down q pid ((s.proc pid).pcs thread))
    (up : ∀ q, q ≠ owner → phase.up q pid pc = phase.up q pid ((s.proc pid).pcs thread)) :
    phase.Gathers owner (s.setProc pid process) := by
  have after : phase.Gathers owner { s.setProc pid process with chan := s.chan.send pid [] } :=
    gathers.keepRun pcs isPart down up
  rwa [Channels.send_nil] at after

theorem keepReceive {source : Fin n} {message : Msg n α} {rest : List (Msg n α)}
    (head : s.chan source pid = message :: rest)
    (isPart : phase.part process.log = phase.part (s.proc pid).log)
    (down : ∀ q, q ≠ owner → phase.down q pid pc =
      phase.down q pid ((s.proc pid).pcs thread) + phase.downMsg q source pid message)
    (up : ∀ q, q ≠ owner → phase.up q pid pc =
      phase.up q pid ((s.proc pid).pcs thread) + phase.upMsg q source pid message) :
    phase.Gathers owner
      { s.setProc pid process with chan := s.chan.setQueue source pid rest } :=
  gathers.keep isPart (fun q notRoot => State.flow_take head pcs 0 (down q notRoot))
    fun q notRoot => State.flow_take head pcs 0 (up q notRoot)

theorem hearReceive {source : Fin n} {message : Msg n α} {rest : List (Msg n α)}
    (notRoot : pid ≠ owner) (head : s.chan source pid = message :: rest)
    (isPart : phase.part process.log = { phase.part (s.proc pid).log with heard := true })
    (down : ∀ q, q ≠ owner → phase.down q pid pc + (if pid = q then 1 else 0) =
      phase.down q pid ((s.proc pid).pcs thread) + phase.downMsg q source pid message)
    (up : ∀ q, q ≠ owner → phase.up q pid pc =
      phase.up q pid ((s.proc pid).pcs thread) + phase.upMsg q source pid message) :
    phase.Gathers owner
      { s.setProc pid process with chan := s.chan.setQueue source pid rest } :=
  gathers.hear notRoot isPart (fun q notRoot => State.flow_take head pcs _ (down q notRoot))
    fun q notRoot => State.flow_take head pcs 0 (up q notRoot)

end Run

theorem collected_le (pid : Fin n) :
    (phase.part (s.proc pid).log).collected.card ≤ (bcast owner pid).length := by
  rw [← List.toFinset_card_of_nodup (nodup_bcast owner pid)]
  exact Finset.card_le_card (gathers.collected pid)

theorem collected_of_replied (replied : (phase.part (s.proc pid).log).replied = true) :
    (phase.part (s.proc pid).log).sent = true ∧
      (phase.part (s.proc pid).log).collected.card = (bcast owner pid).length := by
  obtain ⟨-, sent, all⟩ := gathers.replied pid replied
  refine ⟨sent, ?_⟩
  rw [← List.toFinset_card_of_nodup (nodup_bcast owner pid)]
  exact congrArg Finset.card all

theorem of_taking {source : Fin n} {thread : Option Thread} (replies : Replies owner source pid)
    (taking : 0 < phase.up source pid ((s.proc pid).pcs thread)) :
    source ∉ (phase.part (s.proc pid).log).collected ∧
      (phase.part (s.proc pid).log).sent = true ∧
      (phase.part (s.proc pid).log).collected.card < (bcast owner pid).length := by
  obtain ⟨notRoot, rfl⟩ := replies
  obtain ⟨replied, uncollected, -⟩ := Sound.of_up gathers notRoot (s.flow_pos taking _)
  have heard := gathers.sent source (gathers.replied source replied).2.1
  have down := gathers.down source notRoot
  have bound := Bool.toNat_le ((phase.wave s).sent ((tree owner).parent source))
  rw [heard, Bool.toNat_true] at down
  refine ⟨uncollected, Bool.toNat_eq_one.mp ?_, ?_⟩
  · change ((phase.wave s).sent ((tree owner).parent source)).toNat = 1
    omega
  · rw [← List.toFinset_card_of_nodup (nodup_bcast owner _)]
    refine Finset.card_lt_card ((Finset.ssubset_iff_of_subset (gathers.collected _)).mpr
      ⟨source, ((tree owner).mem_children _ source).mpr ⟨notRoot, rfl⟩, uncollected⟩)

theorem collected_of_unsent (unsent : (phase.part (s.proc pid).log).sent = false) :
    (phase.part (s.proc pid).log).collected = ∅ := by
  refine Finset.eq_empty_of_forall_notMem fun source collected => ?_
  obtain ⟨notRoot, isParent⟩ :=
    ((tree owner).mem_children pid source).mp (gathers.collected pid collected)
  subst isParent
  have up := gathers.up source notRoot
  have collected : source ∈ (phase.wave s).collected ((tree owner).parent source) := collected
  have unsent : (phase.wave s).sent ((tree owner).parent source) = false := unsent
  have bound := Bool.toNat_le ((phase.wave s).replied source)
  rw [if_pos collected] at up
  have replied : (phase.wave s).replied source = true := Bool.toNat_eq_one.mp (by omega)
  have heard := gathers.sent source (gathers.replied source replied).2.1
  have down := gathers.down source notRoot
  rw [heard, unsent, Bool.toNat_true, Bool.toNat_false] at down
  omega

/-- When nothing is left to be done, all processes have been reached, and all replies have been
collected. -/
theorem complete {exact : Fin n → Prop}
    (takes : ∀ pid, (s.proc pid).Takes phase (exact pid) (pid ≠ owner) (bcast owner pid).length)
    (isExact : ∀ pid, pid ≠ owner → exact pid) (idle : s.Idle) (empty : s.chan.Empty)
    (threads : ∀ k, phase.threads k .idle = ((0, 0), 0, 0)) (replies : phase.replies .idle = 0)
    (down : ∀ q pid, phase.down q pid .idle = 0) (up : ∀ q pid, phase.up q pid .idle = 0)
    (started : (phase.part (s.proc owner).log).heard = true) (q : Fin n) :
    (phase.part (s.proc q).log).sent = true ∧
      (q ≠ owner → (phase.part (s.proc q).log).replied = true) ∧
      (phase.part (s.proc q).log).collected.card = (bcast owner q).length := by
  have none (pid : Fin n) {measure : Pc n α → Int} (nothing : measure .idle = 0) :
      (s.proc pid).sum measure = 0 :=
    Finset.sum_eq_zero fun thread _ => (congrArg measure (idle pid thread)).trans nothing
  have isSent (pid : Fin n) (heard : (phase.part (s.proc pid).log).heard = true) :
      (phase.part (s.proc pid).log).sent = true := by
    have between := (takes pid).between
    have unsent : phase.unsent .idle = 0 := congrArg (fun t => t.1.2) (threads 0)
    rw [none pid unsent, heard, Bool.toNat_true] at between
    rw [← Bool.toNat_eq_one]
    omega
  have complete := Sound.complete gathers (isSent owner started)
    (fun q _ => State.flow_eq_zero idle empty (down q) _)
    (fun q _ => State.flow_eq_zero idle empty (up q) _)
    fun pid notRoot heard unreplied => ⟨isSent pid heard, fun isAll => ?_⟩
  · obtain ⟨heard, replied, all⟩ := complete q
    refine ⟨isSent q heard, replied, ?_⟩
    rw [← List.toFinset_card_of_nodup (nodup_bcast owner q)]
    exact congrArg Finset.card all
  · -- the counter of the process is zero, and it is about to reply
    have replying := (takes pid).replying notRoot
    have isOpen : (s.proc pid).sum phase.closed = 0 :=
      none pid (congrArg (fun t => t.2.1) (threads 0))
    have bias : (s.proc pid).sum (phase.bias (bcast owner pid).length) = 0 :=
      none pid (congrArg (fun t => t.2.2) (threads _))
    have atMost := (takes pid).atMost heard isOpen
    have atLeast := (takes pid).atLeast (isExact pid notRoot) heard isOpen
    have card : (phase.part (s.proc pid).log).collected.card = (bcast owner pid).length := by
      rw [← List.toFinset_card_of_nodup (nodup_bcast owner pid)]
      exact congrArg Finset.card isAll
    have unreplied : (phase.part (s.proc pid).log).replied = false := unreplied
    rw [none pid replies, unreplied, if_pos (by omega)] at replying
    exact absurd replying (by decide)

end Gathers

omit [DecidableEq Thread] in
theorem gathers_start [One α]
    (isPart : phase.part (Process.start : Process n Thread α).log = ⟨false, false, false, ∅⟩)
    (down : ∀ q pid, phase.down q pid .idle = 0) (up : ∀ q pid, phase.up q pid .idle = 0) :
    phase.Gathers owner (start n Thread α) := by
  have isWave : phase.wave (start n Thread α) =
      ⟨fun _ => false, fun _ => false, fun _ => false, fun _ => ∅⟩ := by
    simp only [wave, start, isPart]
  have idle : (start n Thread α).Idle := fun _ _ => rfl
  have empty : (start n Thread α).chan.Empty := fun _ _ => rfl
  have sound : Sound (tree owner)
      ⟨fun _ => false, fun _ => false, fun _ => false, fun _ => ∅⟩ (fun _ => 0) fun _ => 0 :=
    ⟨fun _ _ => rfl, fun _ _ => rfl, fun _ sent => absurd sent Bool.false_ne_true,
      fun _ replied => absurd replied Bool.false_ne_true, fun _ => Finset.empty_subset _⟩
  refine gathers_of_sound isWave sound (fun q _ => ?_) fun q _ => ?_
  · exact State.flow_eq_zero idle empty (down q) _
  · exact State.flow_eq_zero idle empty (up q) _

end Phase

end States

end CnC.Reduce
