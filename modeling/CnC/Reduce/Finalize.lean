import CnC.Reduce.Flush

/-!
# Every reduction is finalized once

As long as no reduction has begun to be finished, every process holds the product of its own items
for each of them.  `flush` gathers these products over the tree, and with them the reductions
themselves, so that process 0 puts one value for each of them.
-/

namespace CnC.Reduce

open Convergecast Network Transition

section Unfinished

variable {n : Nat} {Thread α : Type} {owner : Fin n} {count : Int} [Fintype Thread]
  [DecidableEq Thread] [CommMonoid α] [Inhabited α] {s next : State n Thread α}
  {allowed : State n Thread α → Action n Thread α → Prop}

/-- No process has sent its value. -/
def unsent (n : Nat) (α : Type) [One α] : Sent n α := ⟨fun _ => False, fun _ => 1⟩

/-- Until the owner has switched the reduction to BCAST_DONE, no values are exchanged. -/
theorem unsent_of_reached (reached : Reached (system owner count) allowed s)
    (unfired : (s.proc owner).log.fired = 0) :
    Everywhere (fun pid process => process.Holds owner (unsent n α) pid)
      (fun source _ message => message.Carries (unsent n α) source) s.proc s.chan := by
  revert unfired
  refine reached.invariant (fun s => (s.proc owner).log.fired = 0 →
    Everywhere (fun pid process => process.Holds owner (unsent n α) pid)
      (fun source _ message => message.Carries (unsent n α) source) s.proc s.chan) ?_ ?_
  · rintro state rfl -
    refine ⟨fun pid => ⟨List.nodup_nil, ?_, fun q isAdded => ?_, Finset.Subset.refl _,
      fun _ => trivial⟩, fun _ _ _ listed => absurd listed List.not_mem_nil⟩
    · simp [start, Process.start, Process.pending, Pc.pending, Combinable.total]
    · simp [start, Process.start] at isAdded
  · intro state action next before everywhere _ stepped unfired
    have taken := taken_of_step stepped
    have notFired : ¬ 0 < (state.proc owner).log.fired := fun fired =>
      absurd unfired ((le_of_taken taken owner).fired fired).ne'
    have everywhere := everywhere (Nat.eq_zero_of_not_pos notFired)
    have owned := owned_of_reached before
    refine holds_of_taken everywhere owned taken ?_ fun pid thread val source isAdd => ?_
    · rintro pid thread - isCombine
      have fits := (owned.everywhere.processes pid).pcs thread
      rw [isCombine] at fits
      exact notFired fits.2
    · have carries := (everywhere.processes pid).pcs thread
      rw [isAdd] at carries
      exact carries.1.elim

/-- Then the slots of every process hold its own items, and nothing has been put. -/
theorem own_of_unfinished (reached : Reached (system owner count) allowed s) (idle : s.Idle)
    (unfinished : ∀ pid, (s.proc pid).tls.status = .localOnly ∨
      (s.proc pid).tls.status = .cntAvailable) (pid : Fin n) :
    (s.proc pid).log.out = [] ∧ (s.proc pid).tls.slots.keys.Nodup ∧
      (s.proc pid).tls.slots.total (fun _ => true) = (s.proc pid).log.items.prod := by
  have unfired : (s.proc owner).log.fired = 0 := by
    refine Nat.eq_zero_of_not_pos fun fired => ?_
    obtain ⟨notLocal, notAvailable⟩ := (once_of_reached reached owner).spent fired
    exact (unfinished owner).elim notLocal notAvailable
  have holds := (unsent_of_reached reached unfired).processes pid
  have noneAdded : (s.proc pid).log.added = ∅ :=
    Finset.eq_empty_of_forall_notMem fun q isAdded => (holds.added q isAdded).2.1
  have pending : (s.proc pid).pending = 1 :=
    Finset.prod_eq_one fun thread _ => by rw [idle pid thread]; rfl
  have total := holds.total
  rw [noneAdded, Finset.prod_empty, pending, mul_one, mul_one] at total
  refine ⟨?_, holds.nodup, total⟩
  refine (once_of_reached reached pid).put.resolve_right ?_
  rintro ⟨-, isDone | ⟨thread, isPc⟩⟩
  · rcases unfinished pid with status | status <;> rw [isDone] at status <;> cases status
  · rw [idle pid thread] at isPc
    cases isPc

end Unfinished

namespace Flush

variable {n : Nat} {Id Thread α : Type} [NeZero n] [DecidableEq Id]

section Entries

variable {owner : Id → Fin n} {count : Id → Int} {s after : State n Id Thread α}
  {action : Action n Id Thread α} {red : Id → Reduce.State n Thread α} {keys : Fin n → List Id}

/-- A process on which there is no entry for a reduction has had nothing to do with it. -/
structure Entered [One α] (red : Id → Reduce.State n Thread α) (keys : Fin n → List Id) :
    Prop where
  nodup : ∀ pid, (keys pid).Nodup
  untouched : ∀ id pid, id ∉ keys pid → (red id).proc pid = Process.start

omit [NeZero n] in
theorem mem_insert {pid p : Fin n} {id other : Id} :
    other ∈ Function.update keys pid ((keys pid).insert id) p ↔
      other ∈ keys p ∨ p = pid ∧ other = id := by
  by_cases same : p = pid
  · subst same
    rw [Function.update_self, List.mem_insert_iff, or_comm]
    simp
  · rw [Function.update_of_ne same]
    simp [same]

omit [NeZero n] in
theorem Entered.enter [One α] (entered : Entered red keys) {pid : Fin n} {id : Id}
    {changed : Reduce.State n Thread α}
    (elsewhere : ∀ p, p ≠ pid → changed.proc p = (red id).proc p) :
    Entered (Function.update red id changed)
      (Function.update keys pid ((keys pid).insert id)) := by
  refine ⟨fun p => ?_, fun other p notKey => ?_⟩
  · by_cases same : p = pid
    · subst same
      rw [Function.update_self]
      exact (entered.nodup p).insert
    · rw [Function.update_of_ne same]
      exact entered.nodup p
  · obtain ⟨notOld, notNew⟩ := not_or.mp (mem_insert.not.mp notKey)
    by_cases same : other = id
    · subst same
      rw [Function.update_self, elsewhere p fun isPid => notNew ⟨isPid, rfl⟩]
      exact entered.untouched other p notOld
    · rw [Function.update_of_ne same]
      exact entered.untouched other p notOld

variable [DecidableEq Thread] [Mul α] [One α] [Inhabited α]

omit [NeZero n] in
theorem Entered.reduce (entered : Entered s.red s.keys) {id : Id}
    {action : Reduce.Action n Thread α} {changed : Reduce.State n Thread α}
    (stepped : Reduce.step (owner id) (count id) (s.red id) action = some changed) :
    Entered (Function.update s.red id changed) (s.getFor (owner id) id action).keys := by
  have taken := Reduce.taken_of_step stepped
  cases action with
  | putItem pid thread val =>
      refine entered.enter fun p different => ?_
      cases taken
      exact Function.update_of_ne different ..
  | putCount thread =>
      refine entered.enter fun p different => ?_
      cases taken
      exact Function.update_of_ne different ..
  | receive source target =>
      refine entered.enter fun p different => ?_
      cases taken
      exact Function.update_of_ne different ..
  | run pid thread =>
      refine ⟨entered.nodup, fun other p notKey => ?_⟩
      have untouched := entered.untouched other p notKey
      by_cases same : other = id
      · subst same
        rw [Function.update_self]
        by_cases here : p = pid
        · subst here
          simp only [Reduce.step, untouched] at stepped
          cases stepped
        · cases taken
          exact (Function.update_of_ne here ..).trans untouched
      · rw [Function.update_of_ne same]
        exact untouched

theorem Entered.step (entered : Entered s.red s.keys) (taken : Taken owner count s action after) :
    Entered after.red after.keys := by
  cases taken with
  | reduce stepped => exact entered.reduce stepped
  | add isPc => exact entered.enter fun p different => Function.update_of_ne different ..
  | _ => exact entered

theorem entered_of_reached {allowed : State n Id Thread α → Action n Id Thread α → Prop}
    (reached : Reached (system owner count) allowed s) : Entered s.red s.keys := by
  refine reached.invariant (fun s => Entered s.red s.keys) ?_ ?_
  · rintro state rfl
    exact ⟨fun _ => List.nodup_nil, fun _ _ _ => rfl⟩
  · intro state action next _ entered _ stepped
    exact entered.step (taken_of_step stepped)

end Entries

section Values

variable [CommMonoid α] {s : State n Id Thread α}

/-- What the process holds of a reduction. -/
def State.value (s : State n Id Thread α) (pid : Fin n) (id : Id) : α :=
  (s.slots pid id).total fun _ => true

/-- The values which the process has received and not yet added. -/
def Node.pend (node : Node n Id α) : List (Id × α) :=
  match node.pcs .handler with
  | .addValues vals => vals
  | _ => []

/-- Every process holds its own items and the values which its children have sent. -/
structure Sums (s : State n Id Thread α) : Prop where
  settled : ∀ id, (s.red id).Idle ∧ (s.red id).chan.Empty ∧
    ∀ pid, ((s.red id).proc pid).log.out = []
  nodup : ∀ pid id, (s.slots pid id).keys.Nodup
  total : ∀ pid id, s.value pid id * (valuesOf id (s.node pid).pend).prod =
    ((s.red id).proc pid).log.items.prod *
      ∏ q ∈ (s.node pid).collected, (valuesOf id (s.node q).vals).prod
  arrives : ∀ pid, ∀ q ∈ (s.node pid).collected, ∀ id ∈ s.keys q,
    id ∈ s.keys pid ∨ id ∈ (s.node pid).pend.map Prod.fst

/-- The loop over the reductions has listed the values of all but `rest`. -/
structure Listed (keys : List Id) (value : Id → α) (rest : List Id) (vals : List (Id × α)) :
    Prop where
  nodup : rest.Nodup
  subset : rest ⊆ keys
  values : ∀ id, valuesOf id vals = if id ∈ keys ∧ id ∉ rest then [value id] else []

structure Lists (s : State n Id Thread α) (pid : Fin n) : Prop where
  combining : ∀ role rest vals, (s.node pid).pcs role = .combineAll rest vals →
    Listed (s.keys pid) (s.value pid) rest vals
  sent : pid ≠ 0 → (s.node pid).finished = true →
    Listed (s.keys pid) (s.value pid) [] (s.node pid).vals
  putting : pid = 0 → ∀ role rest, (s.node pid).pcs role = .putAll rest →
    Listed (s.keys pid) (s.value pid) rest s.out
  put : pid = 0 → (s.node pid).finished = true → Listed (s.keys pid) (s.value pid) [] s.out
  unput : pid = 0 → (s.node pid).finished = false →
    (∀ role rest, (s.node pid).pcs role ≠ .putAll rest) → s.out = []

omit [NeZero n] [CommMonoid α] in
theorem valuesOf_append (id : Id) (vals vals' : List (Id × α)) :
    valuesOf id (vals ++ vals') = valuesOf id vals ++ valuesOf id vals' := by
  rw [valuesOf, List.filter_append, List.map_append]
  rfl

omit [NeZero n] [CommMonoid α] in
theorem valuesOf_singleton (id other : Id) (val : α) :
    valuesOf id [(other, val)] = if other = id then [val] else [] := by
  by_cases same : other = id <;> simp [valuesOf, same]

omit [NeZero n] [CommMonoid α] in
theorem valuesOf_cons (id other : Id) (val : α) (vals : List (Id × α)) :
    valuesOf id ((other, val) :: vals) =
      if other = id then val :: valuesOf id vals else valuesOf id vals := by
  by_cases same : other = id <;> simp [valuesOf, same]

omit [NeZero n] [CommMonoid α] in
theorem mem_fst {id : Id} {vals : List (Id × α)} (some_ : valuesOf id vals ≠ []) :
    id ∈ vals.map Prod.fst := by
  obtain ⟨val, isVal⟩ := List.exists_mem_of_ne_nil _ some_
  obtain ⟨entry, isEntry, -⟩ := List.mem_map.mp isVal
  obtain ⟨listed, same⟩ := List.mem_filter.mp isEntry
  exact List.mem_map.mpr ⟨entry, listed, of_decide_eq_true same⟩

omit [NeZero n] [CommMonoid α] in
theorem Listed.visit {keys : List Id} {value : Id → α} {rest : List Id} {vals : List (Id × α)}
    {id : Id} (listed : Listed keys value rest vals) (isRest : id ∈ rest) :
    Listed keys value (rest.erase id) (vals ++ [(id, value id)]) := by
  refine ⟨listed.nodup.erase id, fun other isOther =>
    listed.subset (List.mem_of_mem_erase isOther), fun other => ?_⟩
  rw [valuesOf_append, valuesOf_singleton, listed.values]
  by_cases same : id = other
  · subst same
    rw [if_neg fun both => both.2 isRest, if_pos rfl,
      if_pos ⟨listed.subset isRest, listed.nodup.not_mem_erase⟩]
    rfl
  · rw [if_neg same, List.append_nil]
    congr 1
    rw [List.mem_erase_of_ne (Ne.symm same)]

omit [NeZero n] [CommMonoid α] in
theorem listed_start {keys : List Id} (nodup : keys.Nodup) (value : Id → α) :
    Listed keys value keys [] :=
  ⟨nodup, List.Subset.refl _, fun _ => (if_neg fun both => both.2 both.1).symm⟩

end Values

section Sums

variable [DecidableEq Thread] [CommMonoid α] [Inhabited α] {s : State n Id Thread α}
  {pid : Fin n} {node : Node n Id α} {chan : Channels (Fin n) (Msg Id α)}
  {out : List (Id × α)} {role : Role}

omit [NeZero n] [DecidableEq Id] in
theorem addReceived_proc (red : Reduce.State n Thread α) (pid p : Fin n) (val : α) :
    ((addReceived red pid val).proc p).pcs = (red.proc p).pcs ∧
      ((addReceived red pid val).proc p).log = (red.proc p).log ∧
      ((addReceived red pid val).proc p).tls.slots =
        if p = pid then addValue none val (red.proc p).tls.slots else (red.proc p).tls.slots := by
  by_cases same : p = pid
  · subst same
    simp [addReceived, Reduce.State.setProc]
  · simp [addReceived, Reduce.State.setProc, same]

namespace Sums

omit [NeZero n] [DecidableEq Thread] [Inhabited α]

theorem keep (sums : Sums s) (pend : node.pend = (s.node pid).pend)
    (collected : node.collected = (s.node pid).collected)
    (vals : node.vals = (s.node pid).vals ∨ ∀ p, pid ∉ (s.node p).collected) :
    Sums { s with node := Function.update s.node pid node, chan := chan, out := out } := by
  have same (p : Fin n) : (Function.update s.node pid node p).pend = (s.node p).pend ∧
      (Function.update s.node pid node p).collected = (s.node p).collected := by
    by_cases isPid : p = pid
    · subst isPid
      rw [Function.update_self]
      exact ⟨pend, collected⟩
    · rw [Function.update_of_ne isPid]
      exact ⟨rfl, rfl⟩
  refine ⟨sums.settled, sums.nodup, fun p id => ?_, fun p q isCollected id isKey => ?_⟩
  · change s.value p id * (valuesOf id (Function.update s.node pid node p).pend).prod =
      _ * ∏ q ∈ (Function.update s.node pid node p).collected,
        (valuesOf id (Function.update s.node pid node q).vals).prod
    rw [(same p).1, (same p).2, sums.total p id]
    congr 1
    refine Finset.prod_congr rfl fun q isCollected => ?_
    by_cases isPid : q = pid
    · subst isPid
      rw [Function.update_self, vals.resolve_right fun never => never p isCollected]
    · rw [Function.update_of_ne isPid]
  · change _ ∈ s.keys p ∨ _ ∈ (Function.update s.node pid node p).pend.map Prod.fst
    change q ∈ (Function.update s.node pid node p).collected at isCollected
    rw [(same p).2] at isCollected
    rw [(same p).1]
    exact sums.arrives p q isCollected id isKey

theorem receive {source : Fin n} (sums : Sums s) (isPc : (s.node pid).pcs .handler = .idle)
    (uncollected : source ∉ (s.node pid).collected)
    (listed : Listed (s.keys source) (s.value source) [] (s.node source).vals) :
    Sums { s with
      node := Function.update s.node pid
        ((s.node pid).receive source (.allValues (s.node source).vals))
      chan := chan } := by
  have noPend : (s.node pid).pend = [] := by rw [Node.pend, isPc]
  have isPend : ((s.node pid).receive source (.allValues (s.node source).vals)).pend =
      (s.node source).vals := by
    simp [Node.receive, Node.pend, Node.goto]
  have sameVals (q : Fin n) : (Function.update s.node pid
      ((s.node pid).receive source (.allValues (s.node source).vals)) q).vals =
        (s.node q).vals := by
    by_cases isPid : q = pid
    · subst isPid
      rw [Function.update_self]
      rfl
    · rw [Function.update_of_ne isPid]
  refine ⟨sums.settled, sums.nodup, fun p id => ?_, fun p q isCollected id isKey => ?_⟩
  · have total := sums.total p id
    change s.value p id * (valuesOf id (Function.update s.node pid _ p).pend).prod =
      _ * ∏ q ∈ (Function.update s.node pid _ p).collected,
        (valuesOf id (Function.update s.node pid _ q).vals).prod
    simp only [sameVals]
    by_cases isPid : p = pid
    · subst isPid
      rw [noPend] at total
      rw [Function.update_self, isPend]
      change _ = _ * ∏ q ∈ insert source (s.node p).collected, _
      rw [Finset.prod_insert uncollected, mul_left_comm, ← total]
      change _ = _ * (_ * 1)
      rw [mul_one, mul_comm]
    · rw [Function.update_of_ne isPid]
      exact total
  · change _ ∈ s.keys p ∨ _ ∈ (Function.update s.node pid _ p).pend.map Prod.fst
    change q ∈ (Function.update s.node pid _ p).collected at isCollected
    by_cases isPid : p = pid
    · subst isPid
      rw [Function.update_self] at isCollected ⊢
      rw [isPend]
      rcases Finset.mem_insert.mp isCollected with rfl | isOld
      · refine .inr (mem_fst ?_)
        rw [listed.values, if_pos ⟨isKey, List.not_mem_nil⟩]
        exact List.cons_ne_nil _ _
      · refine .inl ((sums.arrives p q isOld id isKey).resolve_right ?_)
        rw [noPend]
        exact List.not_mem_nil
    · rw [Function.update_of_ne isPid] at isCollected ⊢
      exact sums.arrives p q isCollected id isKey

variable [DecidableEq Thread] [Inhabited α]

theorem value_add (sums : Sums s) {id : Id} {val : α} {vals : List (Id × α)} (p : Fin n)
    (other : Id) :
    (State.slots { (s.get pid id).setNode pid ((s.node pid).goto .handler (.addValues vals)) with
        red := Function.update s.red id (addReceived (s.red id) pid val) } p other).keys.Nodup ∧
      State.value { (s.get pid id).setNode pid ((s.node pid).goto .handler (.addValues vals)) with
        red := Function.update s.red id (addReceived (s.red id) pid val) } p other =
        if p = pid ∧ other = id then s.value p other * val else s.value p other := by
  have nodup := sums.nodup p other
  change (((Function.update s.red id (addReceived (s.red id) pid val) other).proc
      p).tls.slots).keys.Nodup ∧
    (((Function.update s.red id (addReceived (s.red id) pid val) other).proc
      p).tls.slots).total (fun _ => true) = _
  by_cases same : other = id
  · subst same
    rw [Function.update_self, (addReceived_proc ..).2.2]
    by_cases here : p = pid
    · rw [if_pos here, if_pos ⟨here, rfl⟩]
      exact addValue_total nodup none val
    · rw [if_neg here, if_neg fun both => here both.1]
      exact ⟨nodup, rfl⟩
  · rw [Function.update_of_ne same, if_neg fun both => same both.2]
    exact ⟨nodup, rfl⟩

theorem add (sums : Sums s) {id : Id} {val : α} {vals : List (Id × α)}
    (isPc : (s.node pid).pcs .handler = .addValues ((id, val) :: vals))
    (uncollected : ∀ p, pid ∉ (s.node p).collected) :
    Sums { (s.get pid id).setNode pid ((s.node pid).goto .handler (.addValues vals)) with
      red := Function.update s.red id (addReceived (s.red id) pid val) } := by
  have sameNode (p : Fin n) : (Function.update s.node pid
      ((s.node pid).goto .handler (.addValues vals)) p).collected = (s.node p).collected ∧
      (Function.update s.node pid ((s.node pid).goto .handler (.addValues vals)) p).vals =
        (s.node p).vals := by
    by_cases isPid : p = pid
    · subst isPid
      rw [Function.update_self]
      exact ⟨rfl, rfl⟩
    · rw [Function.update_of_ne isPid]
      exact ⟨rfl, rfl⟩
  have pend (p : Fin n) : (Function.update s.node pid
      ((s.node pid).goto .handler (.addValues vals)) p).pend =
        if p = pid then vals else (s.node p).pend := by
    by_cases isPid : p = pid
    · subst isPid
      rw [Function.update_self, if_pos rfl, Node.pend, goto_self]
    · rw [Function.update_of_ne isPid, if_neg isPid]
  have before : (s.node pid).pend = (id, val) :: vals := by rw [Node.pend, isPc]
  have sameLog (other : Id) (p : Fin n) :
      ((Function.update s.red id (addReceived (s.red id) pid val) other).proc p).log =
        ((s.red other).proc p).log := by
    by_cases same : other = id
    · subst same
      rw [Function.update_self, (addReceived_proc ..).2.1]
    · rw [Function.update_of_ne same]
  refine ⟨fun other => ?_, fun p other => (sums.value_add p other).1, fun p other => ?_,
    fun p q isCollected other isKey => ?_⟩
  · obtain ⟨idle, empty, unput⟩ := sums.settled other
    refine ⟨fun p thread => ?_, ?_, fun p => ?_⟩
    · change ((Function.update s.red id (addReceived (s.red id) pid val) other).proc p).pcs
        thread = _
      by_cases same : other = id
      · subst same
        rw [Function.update_self, (addReceived_proc ..).1]
        exact idle p thread
      · rw [Function.update_of_ne same]
        exact idle p thread
    · change (Function.update s.red id (addReceived (s.red id) pid val) other).chan.Empty
      by_cases same : other = id
      · subst same
        rw [Function.update_self]
        exact empty
      · rw [Function.update_of_ne same]
        exact empty
    · exact (congrArg Log.out (sameLog other p)).trans (unput p)
  · have total := sums.total p other
    rw [(sums.value_add p other).2]
    change _ * (valuesOf other (Function.update s.node pid _ p).pend).prod =
      ((Function.update s.red id (addReceived (s.red id) pid val) other).proc p).log.items.prod *
        ∏ q ∈ (Function.update s.node pid _ p).collected,
          (valuesOf other (Function.update s.node pid _ q).vals).prod
    rw [sameLog, (sameNode p).1]
    simp only [sameNode]
    rw [← total, pend]
    by_cases isPid : p = pid
    · subst isPid
      rw [if_pos rfl, before, valuesOf_cons]
      by_cases same : other = id
      · subst same
        rw [if_pos ⟨rfl, rfl⟩, if_pos rfl, List.prod_cons, mul_assoc]
      · rw [if_neg fun both => same both.2, if_neg (Ne.symm same)]
    · rw [if_neg fun both => isPid both.1, if_neg isPid]
  · change q ∈ (Function.update s.node pid _ p).collected at isCollected
    change other ∈ Function.update s.keys pid ((s.keys pid).insert id) q at isKey
    change other ∈ Function.update s.keys pid ((s.keys pid).insert id) p ∨
      other ∈ (Function.update s.node pid _ p).pend.map Prod.fst
    rw [(sameNode p).1] at isCollected
    rw [mem_insert, pend]
    rw [mem_insert] at isKey
    have isOld : other ∈ s.keys q := isKey.resolve_right fun both =>
      uncollected p (both.1 ▸ isCollected)
    rcases sums.arrives p q isCollected other isOld with here | isPend
    · exact .inl (.inl here)
    · by_cases isPid : p = pid
      · subst isPid
        rw [before, List.map_cons, List.mem_cons] at isPend
        rw [if_pos rfl]
        exact isPend.imp_left fun same => .inr ⟨rfl, same⟩
      · rw [if_neg isPid]
        exact .inr isPend

end Sums

end Sums

section Lists

variable [CommMonoid α] {s next : State n Id Thread α} {pid : Fin n} {node : Node n Id α}
  {role : Role}

/-- The process has not begun its loop over the reductions. -/
structure Node.Waits (node : Node n Id α) : Prop where
  unfinished : node.finished = false
  putting : ∀ role rest, node.pcs role ≠ .putAll rest
  combining : ∀ role rest vals, node.pcs role ≠ .combineAll rest vals

omit [DecidableEq Id] [CommMonoid α] in
theorem Stage.waits_or (stage : Stage pid node) : node.Waits ∨ node.heard = true ∧
    node.collected.card = (Reduce.bcast 0 pid).length ∧
    ∀ role, node.pcs role = .idle ∨ (node.pcs role).isLoop pid = true := by
  cases stage with
  | loop role heard _ _ isLoop others all =>
      refine .inr ⟨heard, all, fun other => ?_⟩
      by_cases same : other = role
      · exact .inr (same ▸ isLoop)
      · exact .inl (others other same)
  | finished heard _ _ idle all => exact .inr ⟨heard, all, fun role => .inl (idle role)⟩
  | _ => exact .inl ⟨by assumption, by grind [Pc.takes], by grind [Pc.takes]⟩

omit [NeZero n] [DecidableEq Id] [CommMonoid α] in
theorem Node.Waits.goto {next : Node n Id α} {pc : Pc Id α} (waits : node.Waits)
    (pcs : next.pcs = (node.goto role pc).pcs) (finished : next.finished = node.finished)
    (notPut : ∀ rest, pc ≠ .putAll rest) (notCombine : ∀ rest vals, pc ≠ .combineAll rest vals) :
    next.Waits := by
  refine ⟨finished.trans waits.unfinished, fun other rest => ?_, fun other rest vals => ?_⟩
  all_goals
    rw [pcs, pcs_goto]
    split
  · exact notPut rest
  · exact waits.putting other rest
  · exact notCombine rest vals
  · exact waits.combining other rest vals

omit [NeZero n] [DecidableEq Id] [CommMonoid α] in
theorem pend_goto {next : Node n Id α} {pc : Pc Id α} (pcs : next.pcs = (node.goto role pc).pcs)
    (notAdding : role = .handler → node.pend = []) (notAdd : ∀ vals, pc ≠ .addValues vals) :
    next.pend = node.pend := by
  cases role with
  | caller => rw [Node.pend, pcs, goto_other (by decide), Node.pend]
  | handler =>
      rw [notAdding rfl, Node.pend, pcs, goto_self]
      split
      · rename_i vals
        exact absurd rfl (notAdd vals)
      · rfl

theorem lists_of_waits (waits : (next.node pid).Waits) (unput : pid = 0 → next.out = []) :
    Lists next pid :=
  ⟨fun role rest vals isPc => absurd isPc (waits.combining role rest vals),
    fun _ finished => absurd (finished.symm.trans waits.unfinished) (by decide),
    fun _ role rest isPc => absurd isPc (waits.putting role rest),
    fun _ finished => absurd (finished.symm.trans waits.unfinished) (by decide),
    fun isRoot _ _ => unput isRoot⟩

theorem Lists.unput_of_waits (lists : Lists s pid) (waits : (s.node pid).Waits)
    (isRoot : pid = 0) : s.out = [] :=
  lists.unput isRoot waits.unfinished waits.putting

/-- Only one process has changed. -/
theorem lists_update (pid : Fin n) (lists : ∀ p, Lists s p) (own : Lists next pid)
    (node : ∀ p, p ≠ pid → next.node p = s.node p) (keys : ∀ p, p ≠ pid → next.keys p = s.keys p)
    (value : ∀ p, p ≠ pid → next.value p = s.value p) (out : pid ≠ 0 → next.out = s.out)
    (p : Fin n) : Lists next p := by
  by_cases same : p = pid
  · exact same ▸ own
  have before := lists p
  have isOut (isRoot : p = 0) : next.out = s.out := out fun isPid => same (isRoot.trans isPid.symm)
  constructor
  all_goals simp only [node p same, keys p same, value p same]
  · exact before.combining
  · exact before.sent
  · intro isRoot role rest isPc
    rw [isOut isRoot]
    exact before.putting isRoot role rest isPc
  · intro isRoot finished
    rw [isOut isRoot]
    exact before.put isRoot finished
  · intro isRoot unfinished notPut
    rw [isOut isRoot]
    exact before.unput isRoot unfinished notPut

end Lists

section Data

variable [DecidableEq Thread] [CommMonoid α] [Inhabited α] {owner : Id → Fin n}
  {count : Id → Int} {s next : State n Id Thread α} {action : Action n Id Thread α}

structure Data (s : State n Id Thread α) : Prop where
  sums : Sums s
  lists : ∀ pid, Lists s pid

omit [DecidableEq Id] [DecidableEq Thread] [Inhabited α] [CommMonoid α] in
theorem Control.uncollected {nodes : Fin n → Node n Id α} {chan : Channels (Fin n) (Msg Id α)}
    (control : Control nodes chan) {pid : Fin n} (unfinished : (nodes pid).finished = false)
    (p : Fin n) : pid ∉ (nodes p).collected := by
  intro isCollected
  obtain ⟨notRoot, rfl⟩ :=
    ((tree 0).mem_children p pid).mp (control.sound.collected p isCollected)
  have replied := control.sound.replied_of_collected notRoot isCollected
  simp [wave, unfinished] at replied

omit [DecidableEq Id] [DecidableEq Thread] [Inhabited α] [CommMonoid α] in
theorem Control.waits {nodes : Fin n → Node n Id α} {chan : Channels (Fin n) (Msg Id α)}
    (control : Control nodes chan) {pid : Fin n} {role : Role}
    (busy : (nodes pid).pcs role ≠ .idle)
    (notLoop : ((nodes pid).pcs role).isLoop pid = false) : (nodes pid).Waits := by
  refine (control.stage pid).waits_or.resolve_right fun ended => ?_
  rcases ended.2.2 role with idle | isLoop
  · exact busy idle
  · exact Bool.false_ne_true (notLoop.symm.trans isLoop)

namespace Data

variable (data : Data s)

include data

/-- No callback of a reduction runs any more. -/
theorem quiescent {id : Id} {action : Reduce.Action n Thread α} {red : Reduce.State n Thread α}
    (stepped : Reduce.step (owner id) (count id) (s.red id) action = some red) :
    (∃ pid thread val, action = .putItem pid thread val) ∨ ∃ thread, action = .putCount thread := by
  obtain ⟨idle, empty, -⟩ := data.sums.settled id
  cases action with
  | putItem pid thread val => exact .inl ⟨pid, thread, val, rfl⟩
  | putCount thread => exact .inr ⟨thread, rfl⟩
  | receive source target =>
      rw [Reduce.step, empty source target] at stepped
      split at stepped
      · rename_i head
        cases head
      · cases stepped
  | run pid thread =>
      rw [Reduce.step, Reduce.advance, idle pid thread] at stepped
      cases stepped

omit [DecidableEq Thread] [Inhabited α] in
/-- A step of a process which has not begun its loop and does not begin it. -/
theorem wait {pid : Fin n} {role : Role} {node : Node n Id α} {pc : Pc Id α}
    {chan : Channels (Fin n) (Msg Id α)} (waits : (s.node pid).Waits)
    (pcs : node.pcs = ((s.node pid).goto role pc).pcs)
    (finished : node.finished = (s.node pid).finished)
    (collected : node.collected = (s.node pid).collected)
    (vals : node.vals = (s.node pid).vals)
    (notAdding : role = .handler → (s.node pid).pend = []) (notAdd : ∀ vals, pc ≠ .addValues vals)
    (notPut : ∀ rest, pc ≠ .putAll rest) (notCombine : ∀ rest vals, pc ≠ .combineAll rest vals) :
    Data { s.setNode pid node with chan := chan } := by
  have waits' := waits.goto pcs finished notPut notCombine
  refine ⟨data.sums.keep (pend_goto pcs notAdding notAdd) collected (.inl vals),
    lists_update pid data.lists (lists_of_waits ?_ ?_) (fun p different => ?_) (fun _ _ => rfl)
      (fun _ _ => rfl) fun _ => rfl⟩
  · change (Function.update s.node pid node pid).Waits
    rwa [Function.update_self]
  · exact (data.lists pid).unput_of_waits waits
  · exact Function.update_of_ne different ..

omit [DecidableEq Thread] [Inhabited α] in
/-- A loop over the reductions begins, visits one of them, or ends. -/
theorem loop {pid : Fin n} {role : Role} {node : Node n Id α} {pc : Pc Id α}
    {chan : Channels (Fin n) (Msg Id α)} {out : List (Id × α)} (control : Control s.node s.chan)
    (unfinished : (s.node pid).finished = false)
    (others : ∀ other, other ≠ role → (s.node pid).pcs other = .idle)
    (pcs : node.pcs = ((s.node pid).goto role pc).pcs)
    (collected : node.collected = (s.node pid).collected)
    (notAdding : role = .handler → (s.node pid).pend = []) (notAdd : ∀ vals, pc ≠ .addValues vals)
    (combining : ∀ rest vals, pc = .combineAll rest vals →
      Listed (s.keys pid) (s.value pid) rest vals)
    (sent : pid ≠ 0 → node.finished = true → Listed (s.keys pid) (s.value pid) [] node.vals)
    (putting : pid = 0 → ∀ rest, pc = .putAll rest → Listed (s.keys pid) (s.value pid) rest out)
    (put : pid = 0 → node.finished = true → Listed (s.keys pid) (s.value pid) [] out)
    (goesOn : pid = 0 → node.finished = true ∨ ∃ rest, pc = .putAll rest)
    (sameOut : pid ≠ 0 → out = s.out) :
    Data { s.setNode pid node with chan := chan, out := out } := by
  have own (other : Role) : (Function.update s.node pid node pid).pcs other =
      if other = role then pc else .idle := by
    rw [Function.update_self, pcs, pcs_goto]
    split
    · rfl
    · rename_i different
      exact others other different
  have sums : Sums { s with
      node := Function.update s.node pid node
      chan := chan
      out := out } :=
    data.sums.keep (pend_goto pcs notAdding notAdd) collected
      (.inr (control.uncollected unfinished))
  refine ⟨sums, lists_update pid data.lists ⟨fun other rest vals isPc => ?_,
    fun notRoot finished => ?_, fun isRoot other rest isPc => ?_, fun isRoot finished => ?_,
    fun isRoot unfinished notPut => ?_⟩ (fun p different => ?_) (fun _ _ => rfl)
    (fun _ _ => rfl) sameOut⟩
  · change (Function.update s.node pid node pid).pcs other = _ at isPc
    rw [own] at isPc
    split at isPc
    · exact combining rest vals isPc
    · cases isPc
  · change (Function.update s.node pid node pid).finished = true at finished
    rw [Function.update_self] at finished
    change Listed (s.keys pid) (s.value pid) [] (Function.update s.node pid node pid).vals
    rw [Function.update_self]
    exact sent notRoot finished
  · change (Function.update s.node pid node pid).pcs other = _ at isPc
    rw [own] at isPc
    split at isPc
    · exact putting isRoot rest isPc
    · cases isPc
  · change (Function.update s.node pid node pid).finished = true at finished
    rw [Function.update_self] at finished
    exact put isRoot finished
  · change (Function.update s.node pid node pid).finished = false at unfinished
    rw [Function.update_self] at unfinished
    rcases goesOn isRoot with finished | ⟨rest, isPc⟩
    · exact absurd (finished.symm.trans unfinished) (by decide)
    · refine absurd ?_ (notPut role rest)
      change (Function.update s.node pid node pid).pcs role = _
      rw [own, if_pos rfl, isPc]
  · exact Function.update_of_ne different ..

omit [DecidableEq Thread] [Inhabited α] in
/-- The last decrement. -/
theorem last {pid : Fin n} {role : Role} (control : Control s.node s.chan)
    (entered : Entered s.red s.keys) (isPc : (s.node pid).pcs role = .subDones)
    (isLast : (s.node pid).nDones = 1) :
    Data { s.setNode pid { (s.node pid).goto role (sendOrPutAll pid (s.keys pid)) with
        nDones := (s.node pid).nDones - 1 } with chan := s.chan.send pid [] } := by
  obtain ⟨-, -, unfinished, others, -⟩ :=
    (control.stage pid).of_last isPc isLast (control.collected_le pid)
  have waits := control.waits (by rw [isPc]; nofun) (by rw [isPc]; rfl)
  have listed := listed_start (entered.nodup pid) (s.value pid)
  have notAdding (isHandler : role = .handler) : (s.node pid).pend = [] := by
    rw [Node.pend, ← isHandler, isPc]
  have never {goal : Prop} (finished : (s.node pid).finished = true) : goal :=
    absurd (finished.symm.trans unfinished) (by decide)
  by_cases isRoot : pid = 0
  · rw [sendOrPutAll, if_pos isRoot]
    refine data.loop control unfinished others rfl rfl notAdding (fun _ isAdd => ?_)
      (fun _ _ isCombine => ?_) (fun notRoot => absurd isRoot notRoot) (fun _ rest isPut => ?_)
      (fun _ => never) (fun _ => .inr ⟨_, rfl⟩) fun _ => rfl
    · cases isAdd
    · cases isCombine
    · cases isPut
      change Listed (s.keys pid) (s.value pid) (s.keys pid) s.out
      rwa [(data.lists pid).unput_of_waits waits isRoot]
  · rw [sendOrPutAll, if_neg isRoot]
    refine data.loop control unfinished others rfl rfl notAdding (fun _ isAdd => ?_)
      (fun rest vals isCombine => ?_) (fun _ => never) (fun isRoot' => absurd isRoot' isRoot)
      (fun _ => never) (fun isRoot' => absurd isRoot' isRoot) fun _ => rfl
    · cases isAdd
    · cases isCombine
      exact listed

omit [DecidableEq Thread] [Inhabited α] in
theorem moved {pid : Fin n} {role : Role} {node : Node n Id α}
    {messages : List (Fin n × Msg Id α)} (control : Control s.node s.chan)
    (entered : Entered s.red s.keys)
    (moved : Next pid (s.keys pid) (s.node pid) role node messages) :
    Data { s.setNode pid node with chan := s.chan.send pid messages } := by
  have lists := data.lists pid
  cases moved with
  | last isPc isLast => exact data.last control entered isPc isLast
  | put isPc =>
      obtain ⟨isRoot, -, -, unfinished, others, -⟩ := (control.stage pid).of_putAll isPc
      refine data.loop control unfinished others rfl rfl (fun isHandler => ?_) nofun nofun
        (fun notRoot => absurd isRoot notRoot) (fun _ _ => nofun)
        (fun _ _ => lists.putting isRoot role [] isPc) (fun _ => .inl rfl) fun _ => rfl
      rw [Node.pend, ← isHandler, isPc]
  | send isPc =>
      obtain ⟨notRoot, -, -, unfinished, others, -⟩ := (control.stage pid).of_combineAll isPc
      refine data.loop control unfinished others rfl rfl (fun isHandler => ?_) nofun nofun
        (fun _ _ => lists.combining role [] _ isPc) (fun _ _ => nofun)
        (fun isRoot => absurd isRoot notRoot) (fun _ => .inl rfl) fun _ => rfl
      rw [Node.pend, ← isHandler, isPc]
  | _ isPc =>
      have waits := control.waits (by rw [isPc]; nofun) (by rw [isPc]; rfl)
      refine data.wait waits rfl rfl rfl rfl (fun isHandler => ?_) nofun nofun nofun
      rw [Node.pend, ← isHandler, isPc]

omit [DecidableEq Thread] [Inhabited α] in
theorem receiveDone {source pid : Fin n} {rest : List (Msg Id α)} (control : Control s.node s.chan)
    (isPc : (s.node pid).pcs .handler = .idle)
    (head : s.chan source pid = .allDone :: rest) :
    Data { s.setNode pid ((s.node pid).receive source .allDone) with
      chan := s.chan.setQueue source pid rest } := by
  obtain ⟨-, -, unheard⟩ := control.of_done (head ▸ List.mem_cons_self)
  have waits : (s.node pid).Waits := (control.stage pid).waits_or.resolve_right fun ended =>
    Bool.false_ne_true (unheard.symm.trans ended.1)
  have noPend : (s.node pid).pend = [] := by rw [Node.pend, isPc]
  exact data.wait waits rfl rfl rfl rfl (fun _ => noPend) nofun nofun nofun

omit [DecidableEq Thread] [Inhabited α] in
theorem receiveValues {source pid : Fin n} {vals : List (Id × α)} {rest : List (Msg Id α)}
    (control : Control s.node s.chan) (isPc : (s.node pid).pcs .handler = .idle)
    (head : s.chan source pid = .allValues vals :: rest) :
    Data { s.setNode pid ((s.node pid).receive source (.allValues vals)) with
      chan := s.chan.setQueue source pid rest } := by
  obtain ⟨notRoot, -, rfl, finished, uncollected, -, room⟩ :=
    control.of_values (head ▸ List.mem_cons_self)
  have waits : (s.node pid).Waits := (control.stage pid).waits_or.resolve_right fun ended =>
    room.ne ended.2.1
  have waits' : ((s.node pid).receive source (.allValues (s.node source).vals)).Waits :=
    waits.goto rfl rfl nofun nofun
  refine ⟨data.sums.receive isPc uncollected ((data.lists source).sent notRoot finished),
    lists_update pid data.lists (lists_of_waits ?_ ?_) (fun p different => ?_) (fun _ _ => rfl)
      (fun _ _ => rfl) fun _ => rfl⟩
  · change (Function.update s.node pid _ pid).Waits
    rwa [Function.update_self]
  · exact (data.lists pid).unput_of_waits waits
  · exact Function.update_of_ne different ..

theorem add {pid : Fin n} {id : Id} {val : α} {vals : List (Id × α)}
    (control : Control s.node s.chan)
    (isPc : (s.node pid).pcs .handler = .addValues ((id, val) :: vals)) :
    Data { (s.get pid id).setNode pid ((s.node pid).goto .handler (.addValues vals)) with
      red := Function.update s.red id (addReceived (s.red id) pid val) } := by
  have waits := control.waits (by rw [isPc]; nofun) (by rw [isPc]; rfl)
  have waits' : ((s.node pid).goto .handler (.addValues vals)).Waits :=
    waits.goto rfl rfl nofun nofun
  refine ⟨data.sums.add isPc (control.uncollected waits.unfinished),
    lists_update pid data.lists (lists_of_waits ?_ ?_) (fun p different => ?_)
      (fun p different => ?_) (fun p different => ?_) fun _ => rfl⟩
  · change (Function.update s.node pid _ pid).Waits
    rwa [Function.update_self]
  · exact (data.lists pid).unput_of_waits waits
  · exact Function.update_of_ne different ..
  · exact Function.update_of_ne different ..
  · funext other
    exact (data.sums.value_add p other).2.trans (if_neg fun both => different both.1)

omit [DecidableEq Thread] in
theorem put {pid : Fin n} {role : Role} {id : Id} {rest : List Id}
    (control : Control s.node s.chan) (isPc : (s.node pid).pcs role = .putAll rest)
    (isRest : id ∈ rest) (filled : s.slots pid id ≠ [] ∨ (default : α) = 1) :
    Data { s.setNode pid ((s.node pid).goto role (.putAll (rest.erase id))) with
      out := s.out ++ [(id, (s.slots pid id).combine)] } := by
  obtain ⟨isRoot, -, -, unfinished, others, -⟩ := (control.stage pid).of_putAll isPc
  have isValue : (s.slots pid id).combine = s.value pid id :=
    Combinable.combine_eq_of_filled filled
  rw [isValue]
  refine data.loop control unfinished others rfl rfl (fun isHandler => ?_) nofun nofun
    (fun notRoot => absurd isRoot notRoot) (fun _ rest' isPut => ?_)
    (fun _ finished => absurd (finished.symm.trans unfinished) (by decide))
    (fun _ => .inr ⟨_, rfl⟩) fun notRoot => absurd isRoot notRoot
  · rw [Node.pend, ← isHandler, isPc]
  · cases isPut
    exact ((data.lists pid).putting isRoot role rest isPc).visit isRest

omit [DecidableEq Thread] in
theorem combine {pid : Fin n} {role : Role} {id : Id} {rest : List Id} {vals : List (Id × α)}
    (control : Control s.node s.chan) (isPc : (s.node pid).pcs role = .combineAll rest vals)
    (isRest : id ∈ rest) (filled : s.slots pid id ≠ [] ∨ (default : α) = 1) :
    Data (s.setNode pid ((s.node pid).goto role
      (.combineAll (rest.erase id) (vals ++ [(id, (s.slots pid id).combine)])))) := by
  obtain ⟨notRoot, -, -, unfinished, others, -⟩ := (control.stage pid).of_combineAll isPc
  have isValue : (s.slots pid id).combine = s.value pid id :=
    Combinable.combine_eq_of_filled filled
  rw [isValue]
  refine data.loop control unfinished others rfl rfl (fun isHandler => ?_) nofun
    (fun rest' vals' isCombine => ?_)
    (fun _ finished => absurd (finished.symm.trans unfinished) (by decide))
    (fun isRoot => absurd isRoot notRoot) (fun isRoot => absurd isRoot notRoot)
    (fun isRoot => absurd isRoot notRoot) fun _ => rfl
  · rw [Node.pend, ← isHandler, isPc]
  · cases isCombine
    exact ((data.lists pid).combining role rest vals isPc).visit isRest

theorem step (control : Control s.node s.chan) (entered : Entered s.red s.keys)
    (heard : (s.node 0).heard = true) (calls : Calls s action) (unfinished : Unfinished s action)
    (taken : Taken owner count s action next) : Data next := by
  have never {goal : Prop} (unheard : (s.node 0).heard = false) : goal :=
    absurd (heard.symm.trans unheard) (by decide)
  cases taken with
  | reduce stepped =>
      rcases data.quiescent stepped with ⟨pid, thread, val, rfl⟩ | ⟨thread, rfl⟩
      · exact never calls
      · exact never calls
  | flush => exact never calls.1
  | @receive source target message rest isPc head =>
      cases message with
      | allDone => exact data.receiveDone control isPc head
      | allValues vals => exact data.receiveValues control isPc head
  | run moved => exact data.moved control entered moved
  | add isPc => exact data.add control isPc
  | put isPc isRest => exact data.put control isPc isRest unfinished
  | combine isPc isRest => exact data.combine control isPc isRest unfinished

end Data

end Data

end Flush

end CnC.Reduce
