import CnC.Reduce.Tree

/-!
# The operations of a distributed reduction

What one operation of a thread can do to its process, and what every process and every message
knows about the owner of the reduction.
-/

namespace CnC.Reduce

open Network Transition

variable {n : Nat} {Thread α : Type}

section Operations

variable [DecidableEq Thread]

theorem pcs_goto (process : Process n Thread α) (thread other : Option Thread) (pc : Pc n α) :
    (process.goto thread pc).pcs other = if other = thread then pc else process.pcs other := by
  by_cases same : other = thread <;> simp [Process.goto, same]

/-- The operations which change nothing but where the thread is. -/
inductive Plain (me : Fin n) (process : Process n Thread α) : Pc n α → Pc n α → Prop
  | itemLocal {counted} : process.tls.status = .localOnly →
      Plain me process (.itemStatus counted) .idle
  | itemStatus {counted} : process.tls.status ≠ .localOnly →
      Plain me process (.itemStatus counted) (.itemOwner counted)
  | itemOwn {counted} : process.tls.owner = some me →
      Plain me process (.itemOwner counted) (.itemTest counted)
  | itemAlien {counted} : process.tls.owner ≠ some me →
      Plain me process (.itemOwner counted) .itemSend
  | itemFewer {counted} : counted ≠ process.tls.n → Plain me process (.itemTest counted) .idle
  | itemAll : Plain me process (.itemTest process.tls.n) .itemCounts
  | itemGathering : 0 < process.tls.nCounts → Plain me process .itemCounts .idle
  | itemDone : process.tls.nCounts ≤ 0 → Plain me process .itemCounts (.doneOwner me)
  | itemNowhere : process.tls.owner = none ∨ process.tls.owner = some me →
      Plain me process .itemSend .idle
  | itemSend {owner} : process.tls.owner = some owner → owner ≠ me →
      Plain me process .itemSend (.exchange owner false)
  | doneAlready : process.tls.status ≠ .cntAvailable → Plain me process (.doneSwitch me) .idle
  | valueOwn : process.tls.owner = some me → Plain me process .valueOwner .valueStatus
  | valueAlien : process.tls.owner ≠ some me → Plain me process .valueOwner .valueCombine
  | valueUnfinished : process.tls.status ≠ .finish → Plain me process .valueStatus .idle
  | valueFinished : process.tls.status = .finish → Plain me process .valueStatus .valueN
  | valueN : Plain me process .valueN (.valueReduced process.tls.n)
  | putReduced {fromCount} :
      Plain me process (.putReduced fromCount) (.putN fromCount process.tls.nreduced)
  | putAll {fromCount} : Plain me process (.putN fromCount process.tls.n) (.putLock fromCount)
  | putDone {fromCount} : process.tls.status = .done →
      Plain me process (.putStatus fromCount) (.putUnlock fromCount)
  | putFirst {fromCount} : process.tls.status ≠ .done →
      Plain me process (.putStatus fromCount) .putOut
  | gatherOwn : process.tls.owner = some me → Plain me process .gatherOwner .gatherN
  | gatherAlien : process.tls.owner ≠ some me → Plain me process .gatherOwner .gatherSend
  | gatherN : Plain me process .gatherN (.gatherTest process.tls.n)
  | gatherFewer {loaded} : loaded ≠ process.tls.nreduced →
      Plain me process (.gatherTest loaded) .idle
  | gatherAll : Plain me process (.gatherTest process.tls.nreduced) (.doneOwner me)
  | gatherNowhere : process.tls.owner = none ∨
      (∃ owner, process.tls.owner = some owner ∧ myParentForRoot owner me = me) →
      Plain me process .gatherSend .idle
  | gatherSend {owner} : process.tls.owner = some owner → myParentForRoot owner me ≠ me →
      Plain me process .gatherSend (.exchange (myParentForRoot owner me) true)

/-- What `m_cnt` decides: `owner` becomes known, together with the next operation. -/
inductive Learns (owner : Fin n) : Pc n α → Pc n α → Prop
  | done : Learns owner (.doneOwner owner) (.doneSwitch owner)
  | bcast {cnt} : Learns owner (.bcastOwner owner cnt) (.bcastN owner cnt)

/-- The operations which store the number of counts or of values which are missing. -/
inductive Awaits (me : Fin n) (tls : RedTls n Thread α) : Pc n α → Pc n α → Int → Prop
  | flag : Awaits me tls .flagCounts (.doneOwner me) 0
  | begin {owner cnt} : Awaits me tls (.bcastCounts owner cnt) (.bcastSend owner cnt) 1
  | add {owner sent} :
      Awaits me tls (.bcastAdd owner sent) (.bcastRelease owner) (tls.addCounts sent)
  | leaf {owner} : tls.addCounts (-1) = 0 → owner ≠ me → myParentForRoot owner me ≠ me →
      Awaits me tls (.bcastRelease owner) (.exchange (myParentForRoot owner me) true)
        (tls.addCounts (-1))
  | release {owner} : (tls.addCounts (-1) = 0 → owner ≠ me → myParentForRoot owner me = me) →
      Awaits me tls (.bcastRelease owner) .idle (tls.addCounts (-1))

inductive Guards (tls : RedTls n Thread α) : Pc n α → Pc n α → Int → Prop
  | guard {owner} : Guards tls (.doneValues owner) (.doneBcast owner) 1000
  | add {sent} : Guards tls (.doneAdd sent) .doneFinish (tls.nValues + sent)
  | release : Guards tls .doneRelease (.subValue none) (tls.nValues - 999)

inductive Stores (tls : RedTls n Thread α) (count : Int) : Pc n α → Pc n α → Int → Prop
  | count : Stores tls count .countN (.putReduced true) count
  | bcast {owner cnt} : Stores tls count (.bcastN owner cnt) (.bcastSwitch owner cnt) cnt

inductive Raises : Pc n α → Pc n α → Prop
  | flag : Raises .flagSwitch .flagCounts
  | bcast {owner cnt} : Raises (.bcastSwitch owner cnt) (.bcastCounts owner cnt)

def Log.gather (log : Log n α) (source : Fin n) (reply : Bool) : Log n α :=
  if reply then
    { log with counts := { log.counts with collected := insert source log.counts.collected } }
  else { log with extras := log.extras + 1 }

section Frames

variable (process : Process n Thread α) (thread : Option Thread) (me : Fin n) (count : Int)
  (fromCount : Bool)

theorem notPut_pcs : (process.notPut thread me count fromCount).pcs =
    (process.goto thread (if fromCount then .bcastOwner me count else .idle)).pcs := by
  cases fromCount <;> rfl

@[simp]
theorem notPut_tls : (process.notPut thread me count fromCount).tls = process.tls := by
  cases fromCount <;> rfl

@[simp]
theorem notPut_items :
    (process.notPut thread me count fromCount).log.items = process.log.items := by
  cases fromCount <;> rfl

@[simp]
theorem notPut_counted :
    (process.notPut thread me count fromCount).log.counted = process.log.counted := by
  cases fromCount <;> rfl

@[simp]
theorem notPut_fired :
    (process.notPut thread me count fromCount).log.fired = process.log.fired := by
  cases fromCount <;> rfl

@[simp]
theorem notPut_out : (process.notPut thread me count fromCount).log.out = process.log.out := by
  cases fromCount <;> rfl

@[simp]
theorem notPut_values :
    (process.notPut thread me count fromCount).log.values = process.log.values := by
  cases fromCount <;> rfl

@[simp]
theorem notPut_sent :
    (process.notPut thread me count fromCount).log.counts.sent = process.log.counts.sent := by
  cases fromCount <;> rfl

@[simp]
theorem notPut_put : (process.notPut thread me count fromCount).log.put = process.log.put := by
  cases fromCount <;> rfl

@[simp]
theorem notPut_replied : (process.notPut thread me count fromCount).log.counts.replied =
    process.log.counts.replied := by
  cases fromCount <;> rfl

@[simp]
theorem notPut_added :
    (process.notPut thread me count fromCount).log.added = process.log.added := by
  cases fromCount <;> rfl

end Frames

namespace Log

variable (log : Log n α) (source : Fin n) (reply : Bool) (message : Msg n α)

@[simp]
theorem gather_items : (log.gather source reply).items = log.items := by
  cases reply <;> rfl

@[simp]
theorem gather_counted : (log.gather source reply).counted = log.counted := by
  cases reply <;> rfl

@[simp]
theorem gather_fired : (log.gather source reply).fired = log.fired := by
  cases reply <;> rfl

@[simp]
theorem gather_out : (log.gather source reply).out = log.out := by
  cases reply <;> rfl

@[simp]
theorem gather_values : (log.gather source reply).values = log.values := by
  cases reply <;> rfl

@[simp]
theorem gather_sent : (log.gather source reply).counts.sent = log.counts.sent := by
  cases reply <;> rfl

@[simp]
theorem gather_heard : (log.gather source reply).counts.heard = log.counts.heard := by
  cases reply <;> rfl

@[simp]
theorem gather_put : (log.gather source reply).put = log.put := by
  cases reply <;> rfl

@[simp]
theorem gather_replied : (log.gather source reply).counts.replied = log.counts.replied := by
  cases reply <;> rfl

@[simp]
theorem gather_added : (log.gather source reply).added = log.added := by
  cases reply <;> rfl

@[simp]
theorem hear_items : (log.hear message).items = log.items := by
  cases message <;> rfl

@[simp]
theorem hear_counted : (log.hear message).counted = log.counted := by
  cases message <;> rfl

@[simp]
theorem hear_fired : (log.hear message).fired = log.fired := by
  cases message <;> rfl

@[simp]
theorem hear_out : (log.hear message).out = log.out := by
  cases message <;> rfl

@[simp]
theorem hear_values : (log.hear message).values = log.values := by
  cases message <;> rfl

@[simp]
theorem hear_sent : (log.hear message).counts.sent = log.counts.sent := by
  cases message <;> rfl

@[simp]
theorem hear_put : (log.hear message).put = log.put := by
  cases message <;> rfl

@[simp]
theorem hear_added : (log.hear message).added = log.added := by
  cases message <;> rfl

end Log

/-- What an operation can do. -/
inductive Next [Mul α] [One α] [Inhabited α] (me : Fin n) (count : Int)
    (process : Process n Thread α) (thread : Option Thread) :
    Process n Thread α → List (Fin n × Msg n α) → Prop
  | plain {pc} : Plain me process (process.pcs thread) pc →
      Next me count process thread (process.goto thread pc) []
  | addItem {val} : process.pcs thread = .addValue val none →
      Next me count process thread
        { process.goto thread .itemCount with
          tls := { process.tls with slots := addValue thread val process.tls.slots } } []
  | addValue {val source} : process.pcs thread = .addValue val (some source) →
      Next me count process thread
        { process.goto thread (.subValue (some source)) with
          tls := { process.tls with slots := addValue thread val process.tls.slots }
          log := { process.log with added := insert source process.log.added } } []
  | itemCount : process.pcs thread = .itemCount →
      Next me count process thread
        { process.goto thread (.itemStatus (process.tls.nreduced + 1)) with
          tls := { process.tls with nreduced := process.tls.nreduced + 1 }
          log := { process.log with counted := process.log.counted + 1 } } []
  | exchange {receiver always} : process.pcs thread = .exchange receiver always →
      Next me count process thread
        { process.goto thread (if always ∨ 0 < process.tls.nreduced then
            .sendCount receiver process.tls.nreduced always else .idle) with
          tls := { process.tls with nreduced := 0 }
          log := { process.log with
            counts := { process.log.counts with
              replied := process.log.counts.replied || always } } } []
  | sendCount {receiver cnt always} : process.pcs thread = .sendCount receiver cnt always →
      Next me count process thread (process.goto thread .idle)
        [(receiver, .gatherCount cnt always)]
  | learn {owner pc} : Learns owner (process.pcs thread) pc →
      Next me count process thread
        { process.goto thread pc with tls := { process.tls with owner := some owner } } []
  | hear {owner} : process.pcs thread = .doneSwitch owner → owner ≠ me →
      Next me count process thread
        { process.goto thread (.doneValues owner) with
          log := { process.log with values := { process.log.values with heard := true } } } []
  | fire : process.pcs thread = .doneSwitch me → process.tls.status = .cntAvailable →
      Next me count process thread
        { process.goto thread (.doneValues me) with
          tls := { process.tls with status := .bcastDone }
          log := { process.log with
            values := { process.log.values with heard := true }
            fired := process.log.fired + 1 } } []
  | guard {pc nValues} : Guards process.tls (process.pcs thread) pc nValues →
      Next me count process thread
        { process.goto thread pc with tls := { process.tls with nValues := nValues } } []
  | doneBcast {owner} : process.pcs thread = .doneBcast owner →
      Next me count process thread
        { process.goto thread (.doneAdd (bcast owner me).length) with
          log := { process.log with values := { process.log.values with sent := true } } }
        ((bcast owner me).map fun receiver => (receiver, .done owner))
  | doneFinish : process.pcs thread = .doneFinish →
      Next me count process thread
        { process.goto thread .doneRelease with
          tls := { process.tls with status := switch .bcastDone .finish process.tls.status } } []
  | subValue {source} : process.pcs thread = .subValue source →
      Next me count process thread
        { process.goto thread (if process.tls.nValues = 1 then .valueOwner else .idle) with
          tls := { process.tls with nValues := process.tls.nValues - 1 }
          log := { process.log with
            values := { process.log.values with
              collected := process.log.values.collected ∪ source.toFinset } } } []
  | valueReduced {loaded} : process.pcs thread = .valueReduced loaded →
      Next me count process thread
        { process.goto thread (.putReduced false) with
          tls := { process.tls with nreduced := loaded } } []
  | valueCombine : process.pcs thread = .valueCombine →
      Next me count process thread
        { process.goto thread (.valueSend process.tls.slots.combine) with
          log := { process.log with
            values := { process.log.values with replied := true }
            sentValue := process.tls.slots.combine } } []
  | valueSend {val owner} : process.pcs thread = .valueSend val →
      process.tls.owner = some owner →
      Next me count process thread (process.goto thread .valueDone)
        [(myParentForRoot owner me, .value val)]
  | valueLost {val} : process.pcs thread = .valueSend val → process.tls.owner = none →
      Next me count process thread (process.goto thread .valueDone) []
  | valueDone : process.pcs thread = .valueDone →
      Next me count process thread
        { process.goto thread .idle with tls := { process.tls with status := .done } } []
  | putFewer {fromCount loaded} : process.pcs thread = .putN fromCount loaded →
      loaded ≠ process.tls.n →
      Next me count process thread (process.notPut thread me count fromCount) []
  | putLock {fromCount} : process.pcs thread = .putLock fromCount → process.tls.locked = false →
      Next me count process thread
        { process.goto thread (.putStatus fromCount) with
          tls := { process.tls with locked := true } } []
  | putOut : process.pcs thread = .putOut →
      Next me count process thread
        { process.goto thread .putDone with
          log := { process.log with out := process.log.out ++ [process.tls.slots.combine] } } []
  | putDone : process.pcs thread = .putDone →
      Next me count process thread
        { process.goto thread (.putUnlock false) with
          tls := { process.tls with status := .done } } []
  | putUnlock {fromCount} : process.pcs thread = .putUnlock fromCount →
      Next me count process thread
        { process.notPut thread me count fromCount with
          tls := { process.tls with locked := false } } []
  | store {pc cnt} : Stores process.tls count (process.pcs thread) pc cnt →
      Next me count process thread
        { process.goto thread pc with tls := { process.tls with n := cnt } } []
  | raise {pc} : Raises (process.pcs thread) pc →
      Next me count process thread
        { process.goto thread pc with
          tls := { process.tls with
            status := switch .localOnly .cntAvailable process.tls.status } } []
  | await {pc nCounts} : Awaits me process.tls (process.pcs thread) pc nCounts →
      Next me count process thread
        { process.goto thread pc with tls := { process.tls with nCounts := nCounts } } []
  | bcastSend {owner cnt} : process.pcs thread = .bcastSend owner cnt →
      Next me count process thread
        { process.goto thread (.bcastAdd owner (bcast owner me).length) with
          log := { process.log with counts := { process.log.counts with sent := true } } }
        ((bcast owner me).map fun receiver => (receiver, .bcastCount owner cnt))
  | gatherAdd {source cnt reply} : process.pcs thread = .gatherAdd source cnt reply →
      Next me count process thread
        { process.goto thread (.gatherRelease source reply) with
          tls := { process.tls with nreduced := process.tls.nreduced + cnt } } []
  | gatherRelease {source reply} : process.pcs thread = .gatherRelease source reply →
      Next me count process thread
        { process.goto thread (if process.tls.addCounts (-1) ≤ 0 then .gatherOwner else .idle) with
          tls := { process.tls with nCounts := process.tls.addCounts (-1) }
          log := process.log.gather source reply } []

section Inversion

variable [Mul α] [One α] [Inhabited α] {me : Fin n} {count : Int}
  {process next : Process n Thread α} {thread : Option Thread} {sent : List (Fin n × Msg n α)}

theorem plain_sendCount {pc : Pc n α} {receiver : Fin n} {always : Bool}
    (isPc : process.pcs thread = pc) (same : receiver = me → Plain me process pc .idle)
    (other : receiver ≠ me → Plain me process pc (.exchange receiver always)) :
    Next me count process thread (process.goto thread (sendCount me receiver always)) [] := by
  unfold sendCount
  split
  · rename_i isMe
    exact .plain (isPc ▸ same isMe)
  · rename_i notMe
    exact .plain (isPc ▸ other notMe)

theorem next_of_advance (advanced : advance me count process thread = some (next, sent)) :
    Next me count process thread next sent := by
  unfold advance at advanced
  cases isPc : process.pcs thread with
  | idle => simp [isPc] at advanced
  | addValue val source =>
      cases source with
      | none =>
          simp only [isPc, Option.some.injEq, Prod.mk.injEq] at advanced
          obtain ⟨rfl, rfl⟩ := advanced
          exact .addItem isPc
      | some source =>
          simp only [isPc, Option.some.injEq, Prod.mk.injEq] at advanced
          obtain ⟨rfl, rfl⟩ := advanced
          exact .addValue isPc
  | itemCount =>
      simp only [isPc, Option.some.injEq, Prod.mk.injEq] at advanced
      obtain ⟨rfl, rfl⟩ := advanced
      exact .itemCount isPc
  | itemStatus counted =>
      simp only [isPc, Option.some.injEq, Prod.mk.injEq] at advanced
      obtain ⟨rfl, rfl⟩ := advanced
      split
      · rename_i later
        exact .plain (isPc ▸ .itemStatus later)
      · rename_i early
        exact .plain (isPc ▸ .itemLocal (not_not.mp early))
  | itemOwner counted =>
      simp only [isPc, Option.some.injEq, Prod.mk.injEq] at advanced
      obtain ⟨rfl, rfl⟩ := advanced
      split
      · rename_i isOwner
        exact .plain (isPc ▸ .itemOwn isOwner)
      · rename_i notOwner
        exact .plain (isPc ▸ .itemAlien notOwner)
  | itemTest counted =>
      simp only [isPc, Option.some.injEq, Prod.mk.injEq] at advanced
      obtain ⟨rfl, rfl⟩ := advanced
      split
      · rename_i all
        exact .plain (isPc ▸ all ▸ .itemAll)
      · rename_i fewer
        exact .plain (isPc ▸ .itemFewer fewer)
  | itemCounts =>
      simp only [isPc, Option.some.injEq, Prod.mk.injEq] at advanced
      obtain ⟨rfl, rfl⟩ := advanced
      split
      · rename_i gathered
        exact .plain (isPc ▸ .itemDone gathered)
      · rename_i gathering
        exact .plain (isPc ▸ .itemGathering (not_le.mp gathering))
  | itemSend =>
      simp only [isPc, Option.some.injEq, Prod.mk.injEq] at advanced
      obtain ⟨rfl, rfl⟩ := advanced
      cases known : process.tls.owner with
      | none => exact .plain (isPc ▸ .itemNowhere (.inl known))
      | some owner =>
          exact plain_sendCount isPc (fun isMe => .itemNowhere (.inr (isMe ▸ known)))
            fun notMe => .itemSend known notMe
  | exchange receiver always =>
      simp only [isPc, Option.some.injEq, Prod.mk.injEq] at advanced
      obtain ⟨rfl, rfl⟩ := advanced
      exact .exchange isPc
  | sendCount receiver cnt always =>
      simp only [isPc, Option.some.injEq, Prod.mk.injEq] at advanced
      obtain ⟨rfl, rfl⟩ := advanced
      exact .sendCount isPc
  | doneOwner owner =>
      simp only [isPc, Option.some.injEq, Prod.mk.injEq] at advanced
      obtain ⟨rfl, rfl⟩ := advanced
      exact .learn (isPc ▸ .done)
  | doneSwitch owner =>
      simp only [isPc] at advanced
      split at advanced
      · rename_i notMe
        cases advanced
        exact .hear isPc notMe
      · rename_i isMe
        have isMe := not_not.mp isMe
        subst isMe
        split at advanced
        · rename_i available
          cases advanced
          exact .fire isPc available
        · rename_i already
          cases advanced
          exact .plain (isPc ▸ .doneAlready already)
  | doneValues owner =>
      simp only [isPc, Option.some.injEq, Prod.mk.injEq] at advanced
      obtain ⟨rfl, rfl⟩ := advanced
      exact .guard (isPc ▸ .guard)
  | doneBcast owner =>
      simp only [isPc, Option.some.injEq, Prod.mk.injEq] at advanced
      obtain ⟨rfl, rfl⟩ := advanced
      exact .doneBcast isPc
  | doneAdd sent =>
      simp only [isPc, Option.some.injEq, Prod.mk.injEq] at advanced
      obtain ⟨rfl, rfl⟩ := advanced
      exact .guard (isPc ▸ .add)
  | doneFinish =>
      simp only [isPc, Option.some.injEq, Prod.mk.injEq] at advanced
      obtain ⟨rfl, rfl⟩ := advanced
      exact .doneFinish isPc
  | doneRelease =>
      simp only [isPc, Option.some.injEq, Prod.mk.injEq] at advanced
      obtain ⟨rfl, rfl⟩ := advanced
      exact .guard (isPc ▸ .release)
  | subValue source =>
      simp only [isPc, Option.some.injEq, Prod.mk.injEq] at advanced
      obtain ⟨rfl, rfl⟩ := advanced
      exact .subValue isPc
  | valueOwner =>
      simp only [isPc, Option.some.injEq, Prod.mk.injEq] at advanced
      obtain ⟨rfl, rfl⟩ := advanced
      split
      · rename_i isOwner
        exact .plain (isPc ▸ .valueOwn isOwner)
      · rename_i notOwner
        exact .plain (isPc ▸ .valueAlien notOwner)
  | valueStatus =>
      simp only [isPc, Option.some.injEq, Prod.mk.injEq] at advanced
      obtain ⟨rfl, rfl⟩ := advanced
      split
      · rename_i finished
        exact .plain (isPc ▸ .valueFinished finished)
      · rename_i unfinished
        exact .plain (isPc ▸ .valueUnfinished unfinished)
  | valueN =>
      simp only [isPc, Option.some.injEq, Prod.mk.injEq] at advanced
      obtain ⟨rfl, rfl⟩ := advanced
      exact .plain (isPc ▸ .valueN)
  | valueReduced loaded =>
      simp only [isPc, Option.some.injEq, Prod.mk.injEq] at advanced
      obtain ⟨rfl, rfl⟩ := advanced
      exact .valueReduced isPc
  | valueCombine =>
      simp only [isPc, Option.some.injEq, Prod.mk.injEq] at advanced
      obtain ⟨rfl, rfl⟩ := advanced
      exact .valueCombine isPc
  | valueSend val =>
      simp only [isPc, Option.some.injEq, Prod.mk.injEq] at advanced
      obtain ⟨rfl, rfl⟩ := advanced
      cases known : process.tls.owner with
      | none => exact .valueLost isPc known
      | some owner => exact .valueSend isPc known
  | valueDone =>
      simp only [isPc, Option.some.injEq, Prod.mk.injEq] at advanced
      obtain ⟨rfl, rfl⟩ := advanced
      exact .valueDone isPc
  | putReduced fromCount =>
      simp only [isPc, Option.some.injEq, Prod.mk.injEq] at advanced
      obtain ⟨rfl, rfl⟩ := advanced
      exact .plain (isPc ▸ .putReduced)
  | putN fromCount loaded =>
      simp only [isPc] at advanced
      split at advanced
      · rename_i all
        cases advanced
        exact .plain (isPc ▸ all ▸ .putAll)
      · rename_i fewer
        cases advanced
        exact .putFewer isPc fewer
  | putLock fromCount =>
      simp only [isPc] at advanced
      split at advanced
      · cases advanced
      · rename_i unlocked
        cases advanced
        exact .putLock isPc (by simpa using unlocked)
  | putStatus fromCount =>
      simp only [isPc, Option.some.injEq, Prod.mk.injEq] at advanced
      obtain ⟨rfl, rfl⟩ := advanced
      split
      · rename_i first
        exact .plain (isPc ▸ .putFirst first)
      · rename_i already
        exact .plain (isPc ▸ .putDone (not_not.mp already))
  | putOut =>
      simp only [isPc, Option.some.injEq, Prod.mk.injEq] at advanced
      obtain ⟨rfl, rfl⟩ := advanced
      exact .putOut isPc
  | putDone =>
      simp only [isPc, Option.some.injEq, Prod.mk.injEq] at advanced
      obtain ⟨rfl, rfl⟩ := advanced
      exact .putDone isPc
  | putUnlock fromCount =>
      simp only [isPc, Option.some.injEq, Prod.mk.injEq] at advanced
      obtain ⟨rfl, rfl⟩ := advanced
      exact .putUnlock isPc
  | countN =>
      simp only [isPc, Option.some.injEq, Prod.mk.injEq] at advanced
      obtain ⟨rfl, rfl⟩ := advanced
      exact .store (isPc ▸ .count)
  | flagSwitch =>
      simp only [isPc, Option.some.injEq, Prod.mk.injEq] at advanced
      obtain ⟨rfl, rfl⟩ := advanced
      exact .raise (isPc ▸ .flag)
  | flagCounts =>
      simp only [isPc, Option.some.injEq, Prod.mk.injEq] at advanced
      obtain ⟨rfl, rfl⟩ := advanced
      exact .await (isPc ▸ .flag)
  | bcastOwner owner cnt =>
      simp only [isPc, Option.some.injEq, Prod.mk.injEq] at advanced
      obtain ⟨rfl, rfl⟩ := advanced
      exact .learn (isPc ▸ .bcast)
  | bcastN owner cnt =>
      simp only [isPc, Option.some.injEq, Prod.mk.injEq] at advanced
      obtain ⟨rfl, rfl⟩ := advanced
      exact .store (isPc ▸ .bcast)
  | bcastSwitch owner cnt =>
      simp only [isPc, Option.some.injEq, Prod.mk.injEq] at advanced
      obtain ⟨rfl, rfl⟩ := advanced
      exact .raise (isPc ▸ .bcast)
  | bcastCounts owner cnt =>
      simp only [isPc, Option.some.injEq, Prod.mk.injEq] at advanced
      obtain ⟨rfl, rfl⟩ := advanced
      exact .await (isPc ▸ .begin)
  | bcastSend owner cnt =>
      simp only [isPc, Option.some.injEq, Prod.mk.injEq] at advanced
      obtain ⟨rfl, rfl⟩ := advanced
      exact .bcastSend isPc
  | bcastAdd owner sent =>
      simp only [isPc, Option.some.injEq, Prod.mk.injEq] at advanced
      obtain ⟨rfl, rfl⟩ := advanced
      exact .await (isPc ▸ .add)
  | bcastRelease owner =>
      simp only [isPc, Option.some.injEq, Prod.mk.injEq] at advanced
      obtain ⟨rfl, rfl⟩ := advanced
      unfold CnC.Reduce.sendCount
      split
      · rename_i leaf
        split
        · rename_i isMe
          exact .await (isPc ▸ .release fun _ _ => isMe)
        · rename_i notMe
          exact .await (isPc ▸ .leaf leaf.1 leaf.2 notMe)
      · rename_i waits
        exact .await (isPc ▸ .release fun one notMe => absurd ⟨one, notMe⟩ waits)
  | gatherAdd source cnt reply =>
      simp only [isPc, Option.some.injEq, Prod.mk.injEq] at advanced
      obtain ⟨rfl, rfl⟩ := advanced
      exact .gatherAdd isPc
  | gatherRelease source reply =>
      simp only [isPc, Option.some.injEq, Prod.mk.injEq] at advanced
      obtain ⟨rfl, rfl⟩ := advanced
      exact .gatherRelease isPc
  | gatherOwner =>
      simp only [isPc, Option.some.injEq, Prod.mk.injEq] at advanced
      obtain ⟨rfl, rfl⟩ := advanced
      split
      · rename_i isOwner
        exact .plain (isPc ▸ .gatherOwn isOwner)
      · rename_i notOwner
        exact .plain (isPc ▸ .gatherAlien notOwner)
  | gatherN =>
      simp only [isPc, Option.some.injEq, Prod.mk.injEq] at advanced
      obtain ⟨rfl, rfl⟩ := advanced
      exact .plain (isPc ▸ .gatherN)
  | gatherTest loaded =>
      simp only [isPc, Option.some.injEq, Prod.mk.injEq] at advanced
      obtain ⟨rfl, rfl⟩ := advanced
      split
      · rename_i all
        exact .plain (isPc ▸ all ▸ .gatherAll)
      · rename_i fewer
        exact .plain (isPc ▸ .gatherFewer fewer)
  | gatherSend =>
      simp only [isPc, Option.some.injEq, Prod.mk.injEq] at advanced
      obtain ⟨rfl, rfl⟩ := advanced
      cases known : process.tls.owner with
      | none => exact .plain (isPc ▸ .gatherNowhere (.inl known))
      | some owner =>
          exact plain_sendCount isPc
            (fun isMe => .gatherNowhere (.inr ⟨owner, known, isMe⟩))
            fun notMe => .gatherSend known notMe

variable {owner : Fin n} {s after : State n Thread α} {action : Action n Thread α}

inductive Taken (owner : Fin n) (count : Int) (s : State n Thread α) :
    Action n Thread α → State n Thread α → Prop
  | putItem {pid} {thread : Thread} {val} : (s.proc pid).pcs thread = .idle →
      Taken owner count s (.putItem pid thread val)
        (s.setProc pid { (s.proc pid).goto thread (.addValue val none) with
          log := { (s.proc pid).log with items := (s.proc pid).log.items ++ [val] } })
  | putCount {thread : Thread} : (s.proc owner).pcs thread = .idle →
      Taken owner count s (.putCount thread)
        (s.setProc owner
          { (s.proc owner).goto thread (if count = -1 then .flagSwitch else .countN) with
            log := { (s.proc owner).log with put := true } })
  | receive {source target message rest} : (s.proc target).pcs none = .idle →
      s.chan source target = message :: rest →
      Taken owner count s (.receive source target)
        { s.setProc target { (s.proc target).goto none (handler source message) with
            log := (s.proc target).log.hear message } with
          chan := s.chan.setQueue source target rest }
  | run {pid thread process sent} : Next pid count (s.proc pid) thread process sent →
      Taken owner count s (.run pid thread)
        { s.setProc pid process with chan := s.chan.send pid sent }

theorem taken_of_step (stepped : step owner count s action = some after) :
    Taken owner count s action after := by
  cases action with
  | putItem pid thread val =>
      simp only [step] at stepped
      split at stepped
      · rename_i isPc
        cases stepped
        exact .putItem isPc
      · cases stepped
  | putCount thread =>
      simp only [step] at stepped
      split at stepped
      · rename_i isPc
        cases stepped
        exact .putCount isPc
      · cases stepped
  | receive source target =>
      simp only [step] at stepped
      split at stepped
      · rename_i message rest isPc head
        cases stepped
        exact .receive isPc head
      · cases stepped
  | run pid thread =>
      obtain ⟨⟨process, sent⟩, advanced, rfl⟩ := Option.map_eq_some_iff.mp stepped
      exact .run (next_of_advance advanced)

end Inversion

end Operations

end CnC.Reduce
