import CnC.Reduce.Finalize
import CnC.Reduce.LocalFlush

/-!
# One value for each reduction

`flush` begins when the reductions are as their own callbacks have left them.  When all processes
have ended their loops, process 0 has an entry for every reduction which some process knows, and
holds the product of all items.
-/

namespace CnC.Reduce.Flush

open Convergecast Network Transition

variable {n : Nat} {Id Thread α : Type} [NeZero n] [DecidableEq Id] [DecidableEq Thread]
  [CommMonoid α] [Inhabited α] {owner : Id → Fin n} {count : Id → Int}
  {s next : State n Id Thread α} {action : Action n Id Thread α}

section Start

omit [NeZero n] [DecidableEq Id] [DecidableEq Thread] [CommMonoid α] [Inhabited α] in
theorem heard_setNode {pid p : Fin n} {node : Node n Id α}
    (more : (s.node pid).heard = true → node.heard = true) (heard : (s.node p).heard = true) :
    ((s.setNode pid node).node p).heard = true := by
  change (Function.update s.node pid node p).heard = true
  by_cases same : p = pid
  · subst same
    rw [Function.update_self]
    exact more heard
  · rwa [Function.update_of_ne same]

theorem heard_of_taken (taken : Taken owner count s action next) {p : Fin n}
    (heard : (s.node p).heard = true) : (next.node p).heard = true := by
  cases taken with
  | @reduce _ action => cases action <;> exact heard
  | flush => exact heard_setNode (fun _ => rfl) heard
  | @receive _ target message =>
      cases message with
      | allDone => exact heard_setNode (fun _ => rfl) heard
      | allValues => exact heard_setNode id heard
  | run moved =>
      refine heard_setNode (fun before => ?_) heard
      cases moved <;> exact before
  | add | put | combine => exact heard_setNode id heard

/-- `flush` has not been called. -/
structure Before (owner : Id → Fin n) (count : Id → Int) (s : State n Id Thread α) : Prop where
  node : ∀ pid, s.node pid = Node.start
  chan : s.chan.Empty
  out : s.out = []
  red : ∀ id, Reachable (Reduce.system (owner id) (count id)) (s.red id)

omit [NeZero n] [DecidableEq Id] in
theorem before_start : Before owner count (start n Id Thread α) :=
  ⟨fun _ => rfl, fun _ _ => rfl, rfl, fun _ => .initial rfl⟩

namespace Before

variable (before : Before owner count s)

include before

omit [NeZero n] [DecidableEq Id] in
theorem idle (pid : Fin n) (role : Role) : (s.node pid).pcs role = .idle := by
  rw [before.node pid]
  rfl

/-- Nothing but `flush` begins to finalize the reductions. -/
theorem step (taken : Taken owner count s action next) :
    Before owner count next ∨ action = .flush ∧
      next = s.setNode 0 { (s.node 0).goto .caller .donesStore with heard := true } := by
  have busy {pid : Fin n} {role : Role} {pc : Pc Id α} {goal : Prop}
      (isPc : (s.node pid).pcs role = pc) (notIdle : pc ≠ .idle) : goal :=
    absurd (isPc.symm.trans (before.idle pid role)) notIdle
  cases taken with
  | @reduce id action red stepped =>
      refine .inl ⟨?_, ?_, ?_, fun other => ?_⟩
      · cases action <;> exact before.node
      · cases action <;> exact before.chan
      · cases action <;> exact before.out
      · change Reachable _ (Function.update s.red id red other)
        by_cases same : other = id
        · subst same
          rw [Function.update_self]
          exact (before.red other).step trivial stepped
        · rw [Function.update_of_ne same]
          exact before.red other
  | flush => exact .inr ⟨rfl, rfl⟩
  | @receive source target _ _ _ head =>
      rw [before.chan source target] at head
      cases head
  | run moved =>
      cases moved with
      | _ isPc => exact busy isPc nofun
  | add isPc => exact busy isPc nofun
  | put isPc => exact busy isPc nofun
  | combine isPc => exact busy isPc nofun

end Before

omit [NeZero n] [DecidableEq Id] [CommMonoid α] [Inhabited α] in
theorem waits_start : (Node.start : Node n Id α).Waits :=
  ⟨rfl, nofun, nofun⟩

variable [Fintype Thread]

theorem Before.flush (before : Before owner count s) (calls : Calls s .flush)
    (unfinished : Unfinished s .flush) :
    Data (s.setNode 0 { (s.node 0).goto .caller .donesStore with heard := true }) := by
  have own (id : Id) (pid : Fin n) := own_of_unfinished (before.red id) (calls.2 id).1
    (unfinished id) pid
  have collected (p : Fin n) : (Function.update s.node 0
      { (s.node 0).goto .caller .donesStore with heard := true } p).collected = ∅ := by
    by_cases isRoot : p = 0
    · subst isRoot
      rw [Function.update_self]
      exact congrArg Node.collected (before.node 0)
    · rw [Function.update_of_ne isRoot, before.node p]
      rfl
  have waits (p : Fin n) : Node.Waits (Function.update s.node 0
      { (s.node 0).goto .caller .donesStore with heard := true } p) := by
    have waits : (s.node p).Waits := by
      rw [before.node p]
      exact waits_start
    by_cases isRoot : p = 0
    · subst isRoot
      rw [Function.update_self]
      refine waits.goto rfl rfl (fun _ isPut => ?_) fun _ _ isCombine => ?_
      · cases isPut
      · cases isCombine
    · rwa [Function.update_of_ne isRoot]
  have pend (p : Fin n) : Node.pend (Function.update s.node 0
      { (s.node 0).goto .caller .donesStore with heard := true } p) = [] := by
    have noPend : (s.node p).pend = [] := by
      rw [Node.pend, before.idle]
    by_cases isRoot : p = 0
    · subst isRoot
      rw [Function.update_self]
      refine Eq.trans (pend_goto rfl (fun isHandler => ?_) fun _ isAdd => ?_) noPend
      · cases isHandler
      · cases isAdd
    · rwa [Function.update_of_ne isRoot]
  refine ⟨⟨fun id => ⟨(calls.2 id).1, (calls.2 id).2, fun pid => (own id pid).1⟩,
    fun pid id => (own id pid).2.1, fun p id => ?_, fun p q isCollected => ?_⟩,
    fun p => lists_of_waits (waits p) fun _ => before.out⟩
  · change s.value p id * (valuesOf id (Node.pend (Function.update s.node 0 _ p))).prod =
      _ * ∏ q ∈ (Function.update s.node 0 _ p).collected,
        (valuesOf id (Function.update s.node 0 _ q).vals).prod
    rw [pend, collected, Finset.prod_empty, mul_one]
    exact (mul_one _).trans (own id p).2.2
  · change q ∈ (Function.update s.node 0 _ p).collected at isCollected
    rw [collected] at isCollected
    exact absurd isCollected (Finset.notMem_empty q)

theorem data_of_reached (reached : Reached (system owner count) Flushes s)
    (heard : (s.node 0).heard = true) : Data s := by
  have both : ((s.node 0).heard = false → Before owner count s) ∧
      ((s.node 0).heard = true → Data s) := by
    refine reached.invariant (fun s => ((s.node 0).heard = false → Before owner count s) ∧
      ((s.node 0).heard = true → Data s)) ?_ ?_
    · rintro state rfl
      exact ⟨fun _ => before_start, nofun⟩
    · intro state action next reached both allowed stepped
      have taken := taken_of_step stepped
      cases isHeard : (state.node 0).heard with
      | false =>
          have before := both.1 isHeard
          rcases before.step taken with still | ⟨rfl, rfl⟩
          · refine ⟨fun _ => still, fun heard => ?_⟩
            rw [still.node 0] at heard
            cases heard
          · refine ⟨fun unheard => ?_, fun _ => before.flush allowed.1 allowed.2⟩
            simp [State.setNode] at unheard
      | true =>
          have control := control_of_reached (fun _ _ => And.left) reached
          have data := (both.2 isHeard).step control (entered_of_reached reached) isHeard allowed.1
            allowed.2 taken
          refine ⟨fun unheard => absurd ?_ Bool.false_ne_true, fun _ => data⟩
          exact unheard.symm.trans (heard_of_taken taken isHeard)
  exact both.2 heard

end Start

section Finish

omit [NeZero n] [DecidableEq Thread] [Inhabited α] in
theorem exists_key (entered : Entered s.red s.keys) {id : Id} (isPut : s.IsPut owner id) :
    ∃ pid, id ∈ s.keys pid := by
  by_contra absent
  have untouched (pid : Fin n) : (s.red id).proc pid = Process.start :=
    entered.untouched id pid fun isKey => absent ⟨pid, isKey⟩
  rcases isPut with ⟨pid, some_⟩ | isPut
  · rw [untouched pid] at some_
    exact some_ rfl
  · rw [untouched (owner id)] at isPut
    cases isPut

variable (data : Data s) (control : Control s.node s.chan) (entered : Entered s.red s.keys)
  (quiet : s.Quiet) (heard : (s.node 0).heard = true)

include data control quiet heard

omit [DecidableEq Thread] [Inhabited α] in
/-- Process 0 knows every reduction which some process knows. -/
theorem mem_keys_root {id : Id} {q : Fin n} (isKey : id ∈ s.keys q) : id ∈ s.keys 0 := by
  induction isDepth : (tree 0).depth q using Nat.strong_induction_on generalizing q with
  | _ depth inductionHypothesis =>
      by_cases isRoot : q = 0
      · exact isRoot ▸ isKey
      have all := (control.complete quiet.1 quiet.2 heard ((tree 0).parent q)).2
      have isCollected : q ∈ (s.node ((tree 0).parent q)).collected := by
        rw [all]
        exact ((tree 0).mem_children _ q).mpr ⟨isRoot, rfl⟩
      have noPend : (s.node ((tree 0).parent q)).pend = [] := by
        rw [Node.pend, quiet.1]
      have above := (data.sums.arrives _ q isCollected id isKey).resolve_right (by simp [noPend])
      exact inductionHypothesis _ (isDepth ▸ (tree 0).depth_parent q isRoot) above rfl

include entered

omit [DecidableEq Thread] [Inhabited α] in
/-- Process 0 holds the product of all items. -/
theorem value_root (id : Id) :
    s.value 0 id = ∏ pid, ((s.red id).proc pid).log.items.prod := by
  refine (tree 0).prod_own (fun pid => ((s.red id).proc pid).log.items.prod)
    (fun pid => s.value pid id) fun p => ?_
  have total := data.sums.total p id
  have noPend : (s.node p).pend = [] := by
    rw [Node.pend, quiet.1]
  rw [noPend, (control.complete quiet.1 quiet.2 heard p).2] at total
  refine (mul_one _).symm.trans (total.trans ?_)
  congr 1
  refine Finset.prod_congr rfl fun child isChild => ?_
  obtain ⟨notRoot, -⟩ := ((tree 0).mem_children p child).mp isChild
  have sent := (data.lists child).sent notRoot (control.complete quiet.1 quiet.2 heard child).1
  rw [sent.values]
  by_cases isKey : id ∈ s.keys child
  · rw [if_pos ⟨isKey, List.not_mem_nil⟩, List.prod_singleton]
  · rw [if_neg fun both => isKey both.1, State.value, State.slots,
      entered.untouched id child isKey]
    rfl

omit [DecidableEq Thread] [Inhabited α] in
theorem puts_of_quiet {id : Id} (isPut : s.IsPut owner id) :
    s.puts id = [∏ pid, ((s.red id).proc pid).log.items.prod] := by
  obtain ⟨pid, isKey⟩ := exists_key entered isPut
  have put := (data.lists 0).put rfl (control.complete quiet.1 quiet.2 heard 0).1
  have before : (List.finRange n).flatMap (fun pid => ((s.red id).proc pid).log.out) = [] :=
    List.flatMap_eq_nil_iff.mpr fun pid _ => (data.sums.settled id).2.2 pid
  rw [State.puts, before, List.nil_append, put.values,
    if_pos ⟨mem_keys_root data control quiet heard isKey, List.not_mem_nil⟩,
    value_root data control entered quiet heard]

end Finish

/-- Every reduction for which an item or a count has been put gets one value, the product of its
items, if none of them has begun to be finished when `flush` is called. -/
theorem flush_once (n : Nat) [NeZero n] (w : Nat) (Id Thread α : Type) [DecidableEq Id]
    [DecidableEq Thread] [Fintype Thread] [CommMonoid α] [Inhabited α] (owner : Id → Fin n)
    (count : Id → Int) (cnt : Id → BitVec w) :
    (∀ s : State n Id Thread α, Reached (system owner count) Flushes s →
        (s.node 0).heard = true → s.Quiet → ∀ id, s.IsPut owner id →
          s.puts id = [∏ pid, ((s.red id).proc pid).log.items.prod]) ∧
      ∀ s : Local.Graph w Id Thread α, Reached (Local.Graph.system cnt) Local.Graph.Flushes s →
        s.flushed = true → s.loop = none → ∀ id, s.IsPut id →
          s.puts id = [(s.red id).items.prod] := by
  refine ⟨fun s reached heard quiet id isPut => ?_, fun s reached flushed ended id isPut => ?_⟩
  · exact puts_of_quiet (data_of_reached reached heard)
      (control_of_reached (fun _ _ => And.left) reached) (entered_of_reached reached) quiet heard
      isPut
  · exact Local.Graph.puts_of_flushed reached flushed ended isPut

/-- No count is put for the first reduction, of which process 0 does not know, and the count of
the second one is not reached. -/
def twoReductions : List (Action 2 (Fin 2) Unit ℤ) :=
  [[.putItem 1 () 5], List.replicate 3 (.run 1 (some ()))].flatten.map (.reduce 0) ++
    [[.putItem 0 () 7], List.replicate 3 (.run 0 (some ())), [.putItem 1 () 2],
      List.replicate 3 (.run 1 (some ())), [.putCount ()], List.replicate 10 (.run 1 (some ())),
      [.receive 1 0], List.replicate 9 (.run 0 none), [.receive 0 1],
      List.replicate 5 (.run 1 none)].flatten.map (.reduce 1) ++
    [[.flush], List.replicate 5 (.run 0 .caller), [.receive 0 1],
      List.replicate 5 (.run 1 .handler), [.visit 1 .handler 1, .visit 1 .handler 0,
      .run 1 .handler, .receive 1 0, .add 0, .add 0, .run 0 .handler, .run 0 .handler,
      .visit 0 .handler 0, .visit 0 .handler 1, .run 0 .handler]].flatten

theorem run_twoReductions :
    ((system id fun _ => 4).run Flushes (start 2 (Fin 2) Unit ℤ) twoReductions).any (fun s =>
      decide ((s.node 0).heard = true ∧ s.Quiet ∧ ((s.red 0).proc 1).log.items = [5] ∧
        ((s.red 1).proc 1).log.put = true ∧ s.puts 0 = [5] ∧ s.puts 1 = [14])) = true := by
  decide +kernel

def twoLocalReductions : List (Local.GraphAction (Fin 2) Unit ℤ) :=
  [[.putItem () 5], List.replicate 3 (.run ()), [.loadReduced (), .loadN (), .run ()]].flatten.map
      (.reduce 0) ++
    [[.putItem () 7], List.replicate 3 (.run ()), [.loadReduced (), .loadN (), .run ()],
      [.putCount (), .run (), .loadReduced (), .loadN (), .run ()]].flatten.map (.reduce 1) ++
    [.flush, .visit 0, .visit 1, .leave]

theorem run_twoLocalReductions :
    ((Local.Graph.system fun _ => 3).run Local.Graph.Flushes
      (Local.Graph.start 32 (Fin 2) Unit ℤ) twoLocalReductions).any (fun s =>
        decide (s.flushed = true ∧ s.loop = none ∧ (s.red 0).items = [5] ∧ (s.red 1).items = [7] ∧
          s.puts 0 = [5] ∧ s.puts 1 = [7])) = true := by
  decide +kernel

theorem flush_once_two :
    (∃ s, (system id fun _ => 4).run Flushes (start 2 (Fin 2) Unit ℤ) twoReductions = some s ∧
        s.puts 0 = [5] ∧ s.puts 1 = [14] ∧
        ∀ id, s.puts id = [∏ pid, ((s.red id).proc pid).log.items.prod]) ∧
      ∃ s, (Local.Graph.system fun _ => 3).run Local.Graph.Flushes
          (Local.Graph.start 32 (Fin 2) Unit ℤ) twoLocalReductions = some s ∧
        s.puts 0 = [5] ∧ s.puts 1 = [7] ∧ ∀ id, s.puts id = [(s.red id).items.prod] := by
  have once := flush_once 2 32 (Fin 2) Unit ℤ id (fun _ => 4) fun _ => 3
  constructor
  · obtain ⟨s, isRun, facts⟩ := (Option.any_eq_true ..).mp run_twoReductions
    obtain ⟨heard, quiet, items, put, first, second⟩ := of_decide_eq_true facts
    refine ⟨s, isRun, first, second, fun id => ?_⟩
    refine once.1 s (Reached.run (.initial rfl) _ isRun) heard quiet id ?_
    match id with
    | 0 => exact .inl ⟨1, by rw [items]; exact List.cons_ne_nil 5 []⟩
    | 1 => exact .inr put
  · obtain ⟨s, isRun, facts⟩ := (Option.any_eq_true ..).mp run_twoLocalReductions
    obtain ⟨flushed, ended, items, items', first, second⟩ := of_decide_eq_true facts
    refine ⟨s, isRun, first, second, fun id => ?_⟩
    refine once.2 s (Reached.run (.initial rfl) _ isRun) flushed ended id (.inl ?_)
    match id with
    | 0 => exact items ▸ List.cons_ne_nil 5 []
    | 1 => exact items' ▸ List.cons_ne_nil 7 []

/-- A reduction of two items, whose value has been put when `flush` is called. -/
def finished : List (Action 2 Unit Unit ℤ) :=
  [[.putItem 0 () 3], List.replicate 3 (.run 0 (some ())), [.putItem 1 () 5],
      List.replicate 3 (.run 1 (some ())), [.putCount ()], List.replicate 10 (.run 0 (some ())),
      [.receive 0 1], List.replicate 9 (.run 1 none), [.receive 1 0],
      List.replicate 13 (.run 0 none), [.receive 0 1], List.replicate 12 (.run 1 none),
      [.receive 1 0], List.replicate 13 (.run 0 none)].flatten.map (.reduce ()) ++
    [[.flush], List.replicate 5 (.run 0 .caller), [.receive 0 1],
      List.replicate 5 (.run 1 .handler), [.visit 1 .handler (), .run 1 .handler, .receive 1 0,
      .add 0, .run 0 .handler, .run 0 .handler, .visit 0 .handler (), .run 0 .handler]].flatten

theorem run_finished :
    ((system (fun _ => 0) fun _ => 2).run Calls (start 2 Unit Unit ℤ) finished).any (fun s =>
      decide ((s.node 0).heard = true ∧ s.Quiet ∧ ((s.red ()).proc (0 : Fin 2)).log.put = true ∧
        s.puts () = [15, 75])) = true := by
  decide +kernel

/-- `flush` puts a second value for it, in which process 0 multiplies the item of process 1
twice. -/
theorem flush_puts_again :
    ¬ ∀ s : State 2 Unit Unit ℤ, Reached (system (fun _ => 0) fun _ => 2) Calls s →
      (s.node 0).heard = true → s.Quiet → ∀ id, s.IsPut (fun _ => 0) id →
        s.puts id = [∏ pid, ((s.red id).proc pid).log.items.prod] := by
  intro claim
  obtain ⟨s, isRun, facts⟩ := (Option.any_eq_true ..).mp run_finished
  obtain ⟨heard, quiet, put, twice⟩ := of_decide_eq_true facts
  have once := claim s (Reached.run (.initial rfl) _ isRun) heard quiet () (.inr put)
  rw [twice] at once
  exact absurd (congrArg List.length once) (Nat.succ_ne_self 1)

end CnC.Reduce.Flush
