import CnC.Item.Effect
import CnC.Scheduler.Schedulable

/-!
# Get lists

The gets of a step are recorded in the get list of its instance.  When the step succeeds, the
get-counts of the recorded items are decremented; when it has to be replayed, the list is cleared.
The sub-steps of a range share the get list of the range instance.

All of this is on one process.  The tag of an item includes its collection.
-/

namespace CnC.Item.GetList

open Transition CnC.Scheduler

universe u

variable {Tag Item : Type u}

/-- With dependency checks, a range executes each of its steps by a call of `do_execute`; without
them, it calls its steps right away. -/
inductive Kind where
  | step
  | range (checkDeps : Bool)
  deriving DecidableEq, Repr

/-- A call of `do_execute`, with the items which its step got.  When the step has succeeded, `rest`
are the items of the get list which have still to be decremented. -/
structure Call (Tag : Type u) where
  fromRange : Bool
  gets : List Tag
  rest : Option (List Tag)
  deriving DecidableEq

/-- A step instance with the calls of `do_execute`, for each thread the innermost first. -/
structure Instance (Tag : Type u) where
  kind : Kind
  getList : List Tag
  calls : List (List (Call Tag))
  deriving DecidableEq

/-- The last fields tell what has happened, and no step reads them: which items have been put, how
many gets of an item were made by executions which have succeeded, and how many decrements of its
get-count these have committed. -/
structure State (Tag Item : Type u) where
  process : Process 1 Tag Item
  instances : List (Instance Tag)
  wasPut : Tag → Bool
  succeeded : Tag → Nat
  committed : Tag → Nat

inductive CallAction (Tag : Type u) where
  | subStep
  | get (tag : Tag)
  | unsafeGet (tag : Tag)
  | finish (rv : StepReturnValue)
  | decrement

inductive Action (Tag Item : Type u) where
  | put (tag : Tag) (item : Item)
  | getFromEnv (tag : Tag)
  | depends (tag : Tag)
  | create (kind : Kind)
  | execute (i : Nat) (fromRange : Bool)
  | call (i thread : Nat) (action : CallAction Tag)

section Steps

/-- The range instance itself, or a step which is executed when the tags of a range are prepared. -/
def Kind.mayExecute : Kind → Bool → Bool
  | _, false => true
  | .range checkDeps, true => checkDeps
  | .step, true => false

/-- The code of a step is running, and not the loop of `range_step` over the tags. -/
def Call.runsStep (kind : Kind) (c : Call Tag) : Bool :=
  c.rest.isNone && (c.fromRange || decide (kind ≠ .range true))

/-- The gets of an execution which succeeds in this action. -/
def gained : List (Call Tag) → CallAction Tag → List Tag
  | c :: _, .finish .success => c.gets
  | _, _ => []

/-- The item which is decremented in this action. -/
def spent : List (Call Tag) → CallAction Tag → List Tag
  | c :: _, .decrement => (c.rest.getD []).take 1
  | _, _ => []

variable [DecidableEq Tag] (tuner : Tuner 1 Tag)

/-- `wait_for_put` for a step which got an item that is not there. -/
def missing (process : Process 1 Tag Item) (tag : Tag) : Process 1 Tag Item :=
  (waitForPut tuner 0 process tag (process.entry tag)).1

/-- `update_get_list`, which is called if the item has a get-count. -/
def updateGetList (process : Process 1 Tag Item) (getList : List Tag) (tag : Tag) : List Tag :=
  if (process.entry tag).getCount ≠ noGetCount then getList ++ [tag] else getList

/-- One action of the innermost call of `do_execute` of a thread. -/
def callStep (process : Process 1 Tag Item) (kind : Kind) (getList : List Tag) :
    List (Call Tag) → CallAction Tag →
      Option (Process 1 Tag Item × List Tag × List (Call Tag))
  | [], _ => none
  -- a range may execute any of its steps, and more than once
  | c :: outer, .subStep =>
      if kind = .range true ∧ c.fromRange = false ∧ c.rest = none then
        some (process, getList, { fromRange := true, gets := [], rest := none } :: c :: outer)
      else none
  | c :: outer, .get tag =>
      if c.runsStep kind then
        match (process.entry tag).item with
        | some _ =>
            some (process, updateGetList process getList tag,
              { c with gets := c.gets ++ [tag] } :: outer)
        -- `data_not_ready` is caught, and the list is cleared
        | none => some (missing tuner process tag, [], outer)
      else none
  | c :: outer, .unsafeGet tag =>
      if c.runsStep kind then
        match (process.entry tag).item with
        | some _ =>
            some (process, updateGetList process getList tag,
              { c with gets := c.gets ++ [tag] } :: outer)
        | none => some (missing tuner process tag, getList, c :: outer)
      else none
  | c :: outer, .finish rv =>
      if c.rest = none then
        match rv with
        | .success => some (process, getList, { c with rest := some getList } :: outer)
        | .unfinished | .needsExtraWake | .needsSequentialize => some (process, [], outer)
        | .failure => none
      else none
  | c :: outer, .decrement =>
      match c.rest with
      | none => none
      | some [] => some (process, [], outer)
      | some (tag :: rest) =>
          (decrementRefCount tuner 0 process tag true).map fun result =>
            (result.1, getList, { c with rest := some rest } :: outer)

/-- The thread has nothing to do any more when its outermost call has returned. -/
def Instance.setCalls (x : Instance Tag) (thread : Nat) (getList : List Tag)
    (calls : List (Call Tag)) : Instance Tag :=
  { x with
    getList := getList
    calls := if calls = [] then x.calls.eraseIdx thread else x.calls.set thread calls }

def step (s : State Tag Item) : Action Tag Item → Option (State Tag Item)
  | .put tag item =>
      some { s with
        process := (putOrDelete tuner 0 s.process tag item 0).1
        wasPut := Function.update s.wasPut tag true }
  | .getFromEnv tag => some { s with process := (getFromEnv 0 s.process tag).1 }
  | .depends tag =>
      match (s.process.entry tag).item with
      | some _ => some s
      | none => some { s with process := missing tuner s.process tag }
  | .create kind =>
      some { s with
        instances := s.instances ++ [{ kind := kind, getList := [], calls := [] }] }
  | .execute i fromRange =>
      s.instances[i]?.bind fun x =>
        if x.kind.mayExecute fromRange then
          some { s with
            instances := s.instances.set i
              { x with calls := [{ fromRange, gets := [], rest := none }] :: x.calls } }
        else none
  | .call i thread action =>
      s.instances[i]?.bind fun x => x.calls[thread]?.bind fun calls =>
        (callStep tuner s.process x.kind x.getList calls action).map fun result =>
          { s with
            process := result.1
            instances := s.instances.set i (x.setCalls thread result.2.1 result.2.2)
            succeeded := fun tag => s.succeeded tag + (gained calls action).count tag
            committed := fun tag => s.committed tag + (spent calls action).count tag }

def start (Tag Item : Type u) : State Tag Item where
  process :=
    { table := fun _ => none
      sers := fun _ => none
      numgc := 0
      erasedSer := none
      gCounting := 0
      gathering := 0
      getList := []
      putting := [] }
  instances := []
  wasPut _ := false
  succeeded _ := 0
  committed _ := 0

def system : System (State Tag Item) (Action Tag Item) where
  Initial s := s = start Tag Item
  step := step tuner

/-- The gets which successful executions make on the item do not exceed its get-count. -/
def Within (tag : Tag) (s : State Tag Item) : Action Tag Item → Prop
  | .call i thread action => ∀ x ∈ s.instances[i]?, ∀ calls ∈ x.calls[thread]?,
      (s.succeeded tag + (gained calls action).count tag : Int) ≤ tuner.getCount tag
  | _ => True

/-- An instance is executed by one thread at a time, and no item is put again after it has been
erased. -/
def Regular (tag : Tag) (s : State Tag Item) : Action Tag Item → Prop
  | .execute i _ => ∀ x ∈ s.instances[i]?, x.calls = []
  | .put other _ => other = tag → s.wasPut tag = true → (s.process.entry tag).item ≠ none
  | _ => True

instance (tag : Tag) (s : State Tag Item) (action : Action Tag Item) :
    Decidable (Within tuner tag s action) := by
  unfold Within
  split <;> infer_instance

instance (tag : Tag) (s : State Tag Item) (action : Action Tag Item) :
    Decidable (Regular tag s action) := by
  unfold Regular
  split <;> infer_instance

end Steps

/-- The call is the loop of a range over its tags, which is executing one of its steps. -/
structure Call.Waits (kind : Kind) (c : Call Tag) : Prop where
  kind : kind = .range true
  fromRange : c.fromRange = false
  rest : c.rest = none
  gets : c.gets = []

section Calls

variable [DecidableEq Tag] {tag : Tag} {kind : Kind} {getList getList' : List Tag}
  {calls calls' : List (Call Tag)} {c : Call Tag} {outer : List (Call Tag)}

def pending (tag : Tag) (calls : List (Call Tag)) : Nat :=
  (calls.map fun c => (c.rest.getD []).count tag).sum

/-- As long as a call runs, the list holds what it got. -/
structure Call.Listed (tag : Tag) (kind : Kind) (getList : List Tag) (c : Call Tag) : Prop where
  count : c.rest = none → getList.count tag = c.gets.count tag
  loop : c.rest = none → c.runsStep kind = false → c.gets = []

def Fits (tag : Tag) (kind : Kind) (getList : List Tag) : List (Call Tag) → Prop
  | [] => getList = []
  | c :: outer => c.Listed tag kind getList ∧ ∀ other ∈ outer, other.Waits kind

omit [DecidableEq Tag] in
theorem Call.Waits.of_subStep (isRange : kind = .range true) (notFromRange : c.fromRange = false)
    (runs : c.rest = none) (loop : c.rest = none → c.runsStep kind = false → c.gets = []) :
    c.Waits kind :=
  ⟨isRange, notFromRange, runs, loop runs (by simp [Call.runsStep, isRange, notFromRange])⟩

/-- The list is cleared when the innermost call returns. -/
theorem Fits.returns (waits : ∀ other ∈ outer, other.Waits kind) : Fits tag kind [] outer := by
  cases outer with
  | nil => rfl
  | cons next rest =>
      have isWaiting := waits next List.mem_cons_self
      refine ⟨⟨fun _ => ?_, fun _ _ => isWaiting.gets⟩,
        fun other listed => waits other (List.mem_cons_of_mem _ listed)⟩
      rw [isWaiting.gets]

omit [DecidableEq Tag] in
theorem rest_of_runsStep (runs : c.runsStep kind = true) : c.rest.getD [] = [] := by
  rw [Call.runsStep, Bool.and_eq_true, Option.isNone_iff_eq_none] at runs
  rw [runs.1]
  rfl

theorem pending_cons (tag : Tag) (c : Call Tag) (outer : List (Call Tag)) :
    pending tag (c :: outer) = (c.rest.getD []).count tag + pending tag outer :=
  List.sum_cons

variable {tuner : Tuner 1 Tag} {process process' : Process 1 Tag Item} {action : CallAction Tag}

theorem kept_missing (tuner : Tuner 1 Tag) (process : Process 1 Tag Item) (tag : Tag) :
    Kept process (missing tuner process tag) :=
  kept_wait rfl rfl rfl

/-- What an action does to the item collection. -/
inductive Effect (tuner : Tuner 1 Tag) (process process' : Process 1 Tag Item) :
    List Tag → Prop
  | kept : Kept process process' → Effect tuner process process' []
  | decremented {tag : Tag} {sent : Sent 1 Tag Item} :
      decrementRefCount tuner 0 process tag true = some (process', sent) →
      Effect tuner process process' [tag]

theorem Call.Listed.got {other : Tag} (listed : c.Listed tag kind getList)
    (runs : c.runsStep kind = true)
    (counted : (process.entry tag).item ≠ none → (process.entry tag).getCount ≠ noGetCount)
    (present : (process.entry other).item ≠ none) :
    Call.Listed tag kind (updateGetList process getList other)
      { c with gets := c.gets ++ [other] } := by
  refine ⟨fun isRunning => ?_, fun _ loop => absurd (runs.symm.trans loop) (by decide)⟩
  rw [List.count_append, ← listed.count isRunning, updateGetList]
  by_cases same : other = tag
  · subst same
    rw [if_pos (counted present), List.count_append]
  · have none : List.count tag [other] = 0 := by simp [same]
    split
    · rw [List.count_append]
    · rw [none, add_zero]

/-- What an action does to the get list, the calls and the item collection. -/
structure Spec (tuner : Tuner 1 Tag) (tag : Tag) (process : Process 1 Tag Item) (kind : Kind)
    (calls : List (Call Tag)) (action : CallAction Tag) (process' : Process 1 Tag Item)
    (getList' : List Tag) (calls' : List (Call Tag)) : Prop where
  fits : Fits tag kind getList' calls'
  effect : Effect tuner process process' (spent calls action)
  pending : pending tag calls' + (spent calls action).count tag =
    pending tag calls + (gained calls action).count tag
  gets : ∀ c' ∈ calls', tag ∈ c'.gets →
    (∃ c ∈ calls, tag ∈ c.gets) ∨ (process.entry tag).item ≠ none

theorem spec_returns {process' : Process 1 Tag Item} (waits : ∀ other ∈ outer, other.Waits kind)
    (kept : Kept process process') (quiet : spent (c :: outer) action = [])
    (noGain : gained (c :: outer) action = []) (none : (c.rest.getD []) = []) :
    Spec tuner tag process kind (c :: outer) action process' [] outer where
  fits := .returns waits
  effect := quiet ▸ .kept kept
  pending := by rw [quiet, noGain, pending_cons, none, List.count_nil, Nat.zero_add]
  gets c' listed isGet := .inl ⟨c', List.mem_cons_of_mem _ listed, isGet⟩

/-- The innermost call goes on. -/
theorem spec_continues {process' : Process 1 Tag Item} {next : Call Tag}
    (waits : ∀ other ∈ outer, other.Waits kind) (listed : next.Listed tag kind getList')
    (effect : Effect tuner process process' (spent (c :: outer) action))
    (balance : (next.rest.getD []).count tag + (spent (c :: outer) action).count tag =
      (c.rest.getD []).count tag + (gained (c :: outer) action).count tag)
    (gets : tag ∈ next.gets → tag ∈ c.gets ∨ (process.entry tag).item ≠ none) :
    Spec tuner tag process kind (c :: outer) action process' getList' (next :: outer) where
  fits := ⟨listed, waits⟩
  effect := effect
  pending := by rw [pending_cons, pending_cons]; omega
  gets c' listed isGet := by
    rcases List.mem_cons.mp listed with rfl | isOuter
    · exact (gets isGet).imp_left fun isGot => ⟨c, List.mem_cons_self, isGot⟩
    · exact .inl ⟨c', List.mem_cons_of_mem _ isOuter, isGet⟩

theorem spec_got {other : Tag} (listed : c.Listed tag kind getList)
    (waits : ∀ other ∈ outer, other.Waits kind) (runs : c.runsStep kind = true)
    (counted : (process.entry tag).item ≠ none → (process.entry tag).getCount ≠ noGetCount)
    (present : (process.entry other).item ≠ none) (quiet : spent (c :: outer) action = [])
    (noGain : gained (c :: outer) action = []) :
    Spec tuner tag process kind (c :: outer) action process
      (updateGetList process getList other) ({ c with gets := c.gets ++ [other] } :: outer) := by
  refine spec_continues waits (listed.got runs counted present) (quiet ▸ .kept (.refl process)) ?_
    fun isGet => ?_
  · rw [quiet, noGain]
  · rcases List.mem_append.mp isGet with before | isNew
    · exact .inl before
    · rw [List.mem_singleton] at isNew
      exact .inr (isNew ▸ present)

theorem callStep_spec (fits : Fits tag kind getList calls)
    (counted : (process.entry tag).item ≠ none → (process.entry tag).getCount ≠ noGetCount)
    (stepped : callStep tuner process kind getList calls action =
      some (process', getList', calls')) :
    Spec tuner tag process kind calls action process' getList' calls' := by
  cases calls with
  | nil => cases stepped
  | cons c outer =>
      obtain ⟨listed, waits⟩ := fits
      cases action with
      | subStep =>
          obtain ⟨⟨isRange, notFromRange, runs⟩, isNext⟩ := Option.ite_none_right_eq_some.mp stepped
          cases isNext
          have isWaiting : c.Waits kind := .of_subStep isRange notFromRange runs listed.loop
          refine ⟨⟨⟨fun _ => ?_, fun _ _ => rfl⟩, ?_⟩, .kept (.refl process), ?_, ?_⟩
          · rw [listed.count runs, isWaiting.gets]
          · exact List.forall_mem_cons.mpr ⟨isWaiting, waits⟩
          · rw [pending_cons]
            simp [spent, gained]
          · rintro c' isCall isGet
            rcases List.mem_cons.mp isCall with rfl | isOld
            · cases isGet
            · exact .inl ⟨c', isOld, isGet⟩
      | get other =>
          obtain ⟨runs, isNext⟩ := Option.ite_none_right_eq_some.mp stepped
          cases isItem : (process.entry other).item with
          | some item =>
              rw [isItem] at isNext
              cases isNext
              exact spec_got listed waits runs counted (by simp [isItem]) rfl rfl
          | none =>
              rw [isItem] at isNext
              cases isNext
              exact spec_returns waits (kept_missing ..) rfl rfl (rest_of_runsStep runs)
      | unsafeGet other =>
          obtain ⟨runs, isNext⟩ := Option.ite_none_right_eq_some.mp stepped
          cases isItem : (process.entry other).item with
          | some item =>
              rw [isItem] at isNext
              cases isNext
              exact spec_got listed waits runs counted (by simp [isItem]) rfl rfl
          | none =>
              rw [isItem] at isNext
              cases isNext
              exact spec_continues waits listed (.kept (kept_missing ..)) rfl .inl
      | finish rv =>
          obtain ⟨runs, isNext⟩ := Option.ite_none_right_eq_some.mp stepped
          cases rv with
          | success =>
              cases isNext
              refine spec_continues waits ⟨nofun, nofun⟩ (.kept (.refl process)) ?_ .inl
              simpa [runs, gained, spent] using listed.count runs
          | unfinished | needsExtraWake | needsSequentialize =>
              cases isNext
              exact spec_returns waits (.refl process) rfl rfl (by rw [runs]; rfl)
          | failure => cases isNext
      | decrement =>
          rw [callStep] at stepped
          cases isRest : c.rest with
          | none =>
              rw [isRest] at stepped
              cases stepped
          | some rest =>
              rw [isRest] at stepped
              cases rest with
              | nil =>
                  cases stepped
                  exact spec_returns waits (.refl process) (by simp [spent, isRest]) rfl
                    (by rw [isRest]; rfl)
              | cons other rest =>
                  obtain ⟨result, decremented, isNext⟩ := Option.map_eq_some_iff.mp stepped
                  cases isNext
                  have isSpent : spent (c :: outer) .decrement = [other] := by simp [spent, isRest]
                  refine spec_continues waits ⟨nofun, nofun⟩ ?_ ?_ .inl
                  · rw [isSpent]
                    exact .decremented decremented
                  · rw [isSpent, isRest]
                    simp [gained, List.count_cons]

end Calls

section Runs

variable [DecidableEq Tag] {tuner : Tuner 1 Tag} {tag : Tag} {s next : State Tag Item}
  {process process' : Process 1 Tag Item} {x : Instance Tag}

def State.present (s : State Tag Item) (tag : Tag) : Prop :=
  (s.process.entry tag).item ≠ none

/-- At most one thread executes the instance. -/
def Instance.Fits (tag : Tag) (x : Instance Tag) : Prop :=
  ∃ calls, x.calls = (if calls = [] then [] else [calls]) ∧
    GetList.Fits tag x.kind x.getList calls

def Instance.pending (tag : Tag) (x : Instance Tag) : Nat :=
  (x.calls.map (GetList.pending tag)).sum

/-- The decrements which successful executions have still to commit. -/
def State.pending (s : State Tag Item) (tag : Tag) : Nat :=
  (s.instances.map (Instance.pending tag)).sum

theorem sum_map_set {α : Type*} (weight : α → Nat) {values : List α} {i : Nat} {value : α}
    (isValue : values[i]? = some value) (new : α) :
    ((values.set i new).map weight).sum + weight value = (values.map weight).sum + weight new := by
  induction values generalizing i with
  | nil => cases isValue
  | cons first rest inductionHypothesis =>
      cases i with
      | zero =>
          obtain rfl : first = value := Option.some.inj isValue
          simp only [List.set_cons_zero, List.map_cons, List.sum_cons]
          omega
      | succ i =>
          have := inductionHypothesis isValue
          simp only [List.set_cons_succ, List.map_cons, List.sum_cons]
          omega

theorem decremented_cases {other : Tag} {sent : Sent 1 Tag Item}
    (decremented : decrementRefCount tuner 0 process other true = some (process', sent)) :
    ∃ entry : Entry 1 Item, entry.item = (process.entry other).item ∧
      entry.recorded = (process.entry other).recorded ∧
      ((entry.recorded = 1 ∧ process' = process.setEntry other none) ∨
        (entry.recorded ≠ 1 ∧
          process' = process.setEntry other (some (entry.setOrIncrementGetCount (-1)).1))) := by
  obtain ⟨entry, item, -, -, -, recorded, ⟨one, isNext⟩ | ⟨more, isNext⟩⟩ :=
    decrementRefCount_cases decremented
  · refine ⟨entry, item, recorded, .inl ⟨one, ?_⟩⟩
    rw [addErased, if_neg fun both => absurd both.1 (by decide)] at isNext
    exact congrArg Prod.fst isNext
  · exact ⟨entry, item, recorded, .inr ⟨more, congrArg Prod.fst isNext⟩⟩

omit [DecidableEq Tag] in
theorem of_gained {calls : List (Call Tag)} {action : CallAction Tag}
    (isGained : tag ∈ gained calls action) : ∃ c ∈ calls, tag ∈ c.gets := by
  unfold gained at isGained
  split at isGained
  · exact ⟨_, List.mem_cons_self, isGained⟩
  · cases isGained

omit [DecidableEq Tag] in
theorem quiet (calls : List (Call Tag)) (action : CallAction Tag) :
    spent calls action = [] ∨ gained calls action = [] := by
  unfold spent
  split
  · exact .inr rfl
  · exact .inl rfl

theorem Effect.count_cases {spent : List Tag} (effect : Effect tuner process process' spent)
    (tag : Tag) :
    spent.count tag = 0 ∨ spent.count tag = 1 := by
  cases effect with
  | kept => exact .inl rfl
  | @decremented other sent decremented =>
      rw [List.count_singleton]
      split
      · exact .inr rfl
      · exact .inl rfl

theorem Effect.kept_entry {spent : List Tag} (effect : Effect tuner process process' spent)
    (others : spent.count tag = 0) :
    (process'.entry tag).item = (process.entry tag).item ∧
      (process'.entry tag).recorded = (process.entry tag).recorded := by
  cases effect with
  | kept kept => exact ⟨kept.item tag, kept.recorded tag⟩
  | @decremented other sent decremented =>
      have different : tag ≠ other := by
        rintro rfl
        simp at others
      obtain ⟨entry, -, -, ⟨-, rfl⟩ | ⟨-, rfl⟩⟩ := decremented_cases decremented
      · rw [entry_setEntry_none, if_neg different]
        exact ⟨rfl, rfl⟩
      · rw [entry_setEntry, if_neg different]
        exact ⟨rfl, rfl⟩

/-- The last decrement erases the item. -/
theorem Effect.decremented_entry {spent : List Tag} (effect : Effect tuner process process' spent)
    (isSpent : spent.count tag = 1) (positive : 0 < (process.entry tag).recorded) :
    (process'.entry tag).recorded = (process.entry tag).recorded - 1 ∧
      (process'.entry tag).item =
        if (process.entry tag).recorded = 1 then none else (process.entry tag).item := by
  cases effect with
  | kept => cases isSpent
  | @decremented other sent decremented =>
      have same : other = tag := by
        by_contra different
        simp [different] at isSpent
      subst same
      obtain ⟨entry, item, recorded, ⟨one, rfl⟩ | ⟨more, rfl⟩⟩ := decremented_cases decremented
      · rw [← recorded, entry_setEntry_none, if_pos rfl, if_pos one, one]
        exact ⟨rfl, rfl⟩
      · have upper : entry.recorded ≤ intMax := by
          unfold Entry.recorded
          split
          · decide
          · exact entry.isInt.2
        have lower : unsetGetCount < entry.recorded + -1 := by
          rw [recorded]
          exact lt_of_lt_of_le (by decide) (Int.sub_nonneg_of_le positive)
        rw [← recorded, entry_setEntry, if_pos rfl, if_neg more,
          entry.recorded_setOrIncrementGetCount lower (by omega)]
        exact ⟨rfl, by rw [Entry.setOrIncrementGetCount_item, item]⟩

/-- The item is there from its put until as many decrements are committed as its get-count says. -/
structure Exact (tuner : Tuner 1 Tag) (tag : Tag) (s : State Tag Item) : Prop where
  fits : ∀ x ∈ s.instances, x.Fits tag
  gets : ∀ x ∈ s.instances, ∀ calls ∈ x.calls, ∀ c ∈ calls, tag ∈ c.gets → s.wasPut tag = true
  bound : (s.succeeded tag : Int) ≤ tuner.getCount tag
  unput : s.wasPut tag = false → s.succeeded tag = 0
  balance : s.succeeded tag = s.committed tag + s.pending tag
  present : s.present tag ↔ s.wasPut tag = true ∧ (s.committed tag : Int) < tuner.getCount tag
  recorded : (s.process.entry tag).recorded =
    if (s.process.entry tag).item = none then 0 else tuner.getCount tag - s.committed tag

section Puts

variable {other : Tag} {item : Item}

theorem put_other (different : tag ≠ other) :
    (putOrDelete tuner 0 process other item 0).1.entry tag = process.entry tag := by
  rcases putOrDelete_cases tuner 0 process other item 0 with
    ⟨-, -, isNext⟩ | ⟨-, isNext⟩ | ⟨-, -, entry, -, -, -, -, -, isNext⟩
  · rw [isNext]
  · rw [isNext]
  · rw [isNext, entry_setEntry, if_neg different]

theorem put_present (present : (process.entry tag).item ≠ none) :
    (putOrDelete tuner 0 process tag item 0).1 = process := by
  rcases putOrDelete_cases tuner 0 process tag item 0 with
    ⟨-, -, isNext⟩ | ⟨-, isNext⟩ | ⟨absent, -⟩
  · rw [isNext]
  · rw [isNext]
  · exact absurd absent present

theorem put_absent (item : Item) (positive : 0 < tuner.getCount tag)
    (absent : (process.entry tag).item = none)
    (unset : (process.entry tag).recorded = 0) :
    ((putOrDelete tuner 0 process tag item 0).1.entry tag).item ≠ none ∧
      ((putOrDelete tuner 0 process tag item 0).1.entry tag).recorded = tuner.getCount tag := by
  rcases putOrDelete_cases tuner 0 process tag item 0 with
    ⟨zero, -, -⟩ | ⟨present, -⟩ | ⟨-, -, entry, isItem, -, -, -, getCount, isNext⟩
  · omega
  · exact absurd absent present
  · have counted : tuner.getCount tag ≠ noGetCount := by
      have negative : noGetCount < 0 := by decide
      omega
    have lower : unsetGetCount < (process.entry tag).recorded + tuner.getCount tag := by
      have negative : unsetGetCount < 0 := by decide
      omega
    have upper := tuner.getCount_le tag
    have recorded := (process.entry tag).recorded_setOrIncrementGetCount lower (by omega)
    rw [if_neg counted, if_pos rfl] at getCount
    rw [isNext, entry_setEntry, if_pos rfl, isItem, Entry.recorded, getCount]
    exact ⟨Option.some_ne_none item, recorded.trans (by rw [unset, zero_add])⟩

end Puts

namespace Exact

theorem counted (exact_ : Exact tuner tag s) (present : s.present tag) :
    (s.process.entry tag).getCount ≠ noGetCount := by
  have recorded := exact_.recorded
  rw [if_neg present] at recorded
  have below := (exact_.present.mp present).2
  intro uncounted
  have isNone := (s.process.entry tag).recorded_eq_noGetCount_iff.mpr uncounted
  rw [isNone] at recorded
  have negative : noGetCount < 0 := by decide
  omega

/-- Neither the item nor its get-count changes. -/
theorem keep (exact_ : Exact tuner tag s) {process : Process 1 Tag Item}
    (item : (process.entry tag).item = (s.process.entry tag).item)
    (recorded : (process.entry tag).recorded = (s.process.entry tag).recorded) :
    Exact tuner tag { s with process := process } := by
  refine { exact_ with present := ?_, recorded := ?_ }
  · rw [State.present, item]
    exact exact_.present
  · rw [recorded, item]
    exact exact_.recorded

/-- A decrement finds the item. -/
theorem table (exact_ : Exact tuner tag s) {process : Process 1 Tag Item} {spent : List Tag}
    (effect : Effect tuner s.process process spent)
    (due : s.committed tag + spent.count tag ≤ s.succeeded tag) :
    ((process.entry tag).item ≠ none ↔ s.wasPut tag = true ∧
        (↑(s.committed tag + spent.count tag) : Int) < tuner.getCount tag) ∧
      (process.entry tag).recorded = if (process.entry tag).item = none then 0
        else tuner.getCount tag - ↑(s.committed tag + spent.count tag) := by
  have bound := exact_.bound
  have recorded := exact_.recorded
  rcases effect.count_cases tag with others | one
  · obtain ⟨item, count⟩ := effect.kept_entry others
    rw [others, add_zero, item, count]
    exact ⟨exact_.present, recorded⟩
  · have isPut : s.wasPut tag = true := by
      by_contra unput
      have := exact_.unput (Bool.eq_false_iff.mpr unput)
      omega
    have present := exact_.present.mpr ⟨isPut, by omega⟩
    rw [if_neg present] at recorded
    obtain ⟨count, item⟩ := effect.decremented_entry one (by omega)
    rw [one, item, count]
    split
    · rename_i last
      refine ⟨iff_of_false (fun some => some rfl) fun both => ?_, ?_⟩
      · omega
      · rw [if_pos rfl, last, sub_self]
    · rename_i more
      refine ⟨iff_of_true present ⟨isPut, ?_⟩, ?_⟩
      · omega
      · rw [if_neg present, recorded]
        omega

theorem put (exact_ : Exact tuner tag s) (positive : 0 < tuner.getCount tag) {other : Tag}
    {item : Item} (regular : Regular tag s (.put other item)) :
    Exact tuner tag { s with
      process := (putOrDelete tuner 0 s.process other item 0).1
      wasPut := Function.update s.wasPut other true } := by
  by_cases same : tag = other
  · subst same
    have isPut : Function.update s.wasPut tag true tag = true := Function.update_self ..
    have table : ((putOrDelete tuner 0 s.process tag item 0).1.entry tag).item ≠ none ∧
        ((putOrDelete tuner 0 s.process tag item 0).1.entry tag).recorded =
          tuner.getCount tag - s.committed tag ∧
        (s.committed tag : Int) < tuner.getCount tag := by
      have recorded := exact_.recorded
      by_cases absent : (s.process.entry tag).item = none
      · rw [if_pos absent] at recorded
        have unput : s.wasPut tag = false :=
          Bool.eq_false_iff.mpr fun before => regular rfl before absent
        have none : s.committed tag = 0 := by
          have balance := exact_.balance
          rw [exact_.unput unput] at balance
          omega
        obtain ⟨present, count⟩ := put_absent item positive absent recorded
        rw [none]
        exact ⟨present, count.trans (sub_zero _).symm, positive⟩
      · rw [if_neg absent] at recorded
        rw [put_present absent]
        exact ⟨absent, recorded, (exact_.present.mp absent).2⟩
    refine ⟨exact_.fits, fun _ _ _ _ _ _ _ => isPut, exact_.bound,
      fun unput => absurd (isPut.symm.trans unput) (by decide), exact_.balance, ?_, ?_⟩
    · exact iff_of_true table.1 ⟨isPut, table.2.2⟩
    · exact table.2.1.trans (if_neg table.1).symm
  · have sameEntry : (putOrDelete tuner 0 s.process other item 0).1.entry tag =
        s.process.entry tag := put_other same
    have kept := exact_.keep (congrArg Entry.item sameEntry) (congrArg Entry.recorded sameEntry)
    have before : Function.update s.wasPut other true tag = s.wasPut tag :=
      Function.update_of_ne same ..
    refine { kept with gets := ?_, unput := ?_, present := ?_ }
    · intro x isInstance calls isCalls c isCall isGet
      exact before.trans (exact_.gets x isInstance calls isCalls c isCall isGet)
    · exact fun unput => exact_.unput (before.symm.trans unput)
    · exact kept.present.trans (and_congr_left fun _ => iff_of_eq (congrArg (· = true) before.symm))

theorem create (exact_ : Exact tuner tag s) (kind : Kind) :
    Exact tuner tag { s with
      instances := s.instances ++ [{ kind := kind, getList := [], calls := [] }] } := by
  refine { exact_ with fits := ?_, gets := ?_, balance := ?_ }
  · intro x isInstance
    rcases List.mem_append.mp isInstance with isOld | isNew
    · exact exact_.fits x isOld
    · cases List.mem_singleton.mp isNew
      exact ⟨[], rfl, rfl⟩
  · intro x isInstance calls isCalls
    rcases List.mem_append.mp isInstance with isOld | isNew
    · exact exact_.gets x isOld calls isCalls
    · cases List.mem_singleton.mp isNew
      cases isCalls
  · have same : State.pending { s with
        instances := s.instances ++ [{ kind := kind, getList := [], calls := [] }] } tag =
        s.pending tag := by
      simp [State.pending, Instance.pending]
    rw [same]
    exact exact_.balance

theorem execute (exact_ : Exact tuner tag s) {i : Nat} (isInstance : s.instances[i]? = some x)
    (free : x.calls = []) (fromRange : Bool) :
    Exact tuner tag { s with
      instances := s.instances.set i
        { x with calls := [{ fromRange, gets := [], rest := none }] :: x.calls } } := by
  have member := List.mem_of_getElem? isInstance
  obtain ⟨calls, isCalls, fits⟩ := exact_.fits x member
  have none : calls = [] := by
    by_contra some
    rw [if_neg some, free] at isCalls
    cases isCalls
  subst none
  have cleared : x.getList = [] := fits
  refine { exact_ with fits := ?_, gets := ?_, balance := ?_ }
  · intro y isIn
    rcases List.mem_or_eq_of_mem_set isIn with isOld | rfl
    · exact exact_.fits y isOld
    · refine ⟨[{ fromRange, gets := [], rest := none }], by rw [free]; rfl,
        ⟨fun _ => ?_, fun _ _ => rfl⟩, fun _ listed => ?_⟩
      · rw [cleared]
      · cases listed
  · intro y isIn calls isCalls c isCall isGet
    rcases List.mem_or_eq_of_mem_set isIn with isOld | rfl
    · exact exact_.gets y isOld calls isCalls c isCall isGet
    · rw [free, List.mem_singleton] at isCalls
      subst isCalls
      cases List.mem_singleton.mp isCall
      cases isGet
  · have moved := sum_map_set (Instance.pending tag) isInstance
      { x with calls := [{ fromRange, gets := [], rest := none }] :: x.calls }
    have before : x.pending tag = 0 := by rw [Instance.pending, free]; rfl
    have after : Instance.pending tag
        { x with calls := [{ fromRange, gets := [], rest := none }] :: x.calls } = 0 := by
      rw [Instance.pending, free]
      rfl
    rw [before, after] at moved
    exact exact_.balance.trans (congrArg _ moved.symm)

theorem calls (exact_ : Exact tuner tag s) {i thread : Nat} {calls : List (Call Tag)}
    (isInstance : s.instances[i]? = some x) (isCalls : x.calls[thread]? = some calls) :
    thread = 0 ∧ x.calls = [calls] ∧ GetList.Fits tag x.kind x.getList calls := by
  obtain ⟨own, isOwn, fits⟩ := exact_.fits x (List.mem_of_getElem? isInstance)
  by_cases none : own = []
  · rw [isOwn, if_pos none] at isCalls
    cases isCalls
  · rw [if_neg none] at isOwn
    rw [isOwn, List.getElem?_singleton] at isCalls
    obtain ⟨isFirst, isSame⟩ := Option.ite_none_right_eq_some.mp isCalls
    cases isSame
    exact ⟨isFirst, isOwn, fits⟩

theorem call (exact_ : Exact tuner tag s) {i thread : Nat} {action : CallAction Tag}
    {process : Process 1 Tag Item} {getList : List Tag} {old new : List (Call Tag)}
    (isInstance : s.instances[i]? = some x) (isCalls : x.calls[thread]? = some old)
    (within : (s.succeeded tag + (gained old action).count tag : Int) ≤ tuner.getCount tag)
    (stepped : callStep tuner s.process x.kind x.getList old action =
      some (process, getList, new)) :
    Exact tuner tag { s with
      process := process
      instances := s.instances.set i (x.setCalls thread getList new)
      succeeded := fun tag => s.succeeded tag + (gained old action).count tag
      committed := fun tag => s.committed tag + (spent old action).count tag } := by
  have member := List.mem_of_getElem? isInstance
  obtain ⟨rfl, single, fits⟩ := exact_.calls isInstance isCalls
  have spec := callStep_spec fits exact_.counted stepped
  have isNext : (x.setCalls 0 getList new).calls = if new = [] then [] else [new] := by
    rw [Instance.setCalls, single]
    rfl
  have wasPut : ∀ c ∈ old, tag ∈ c.gets → s.wasPut tag = true :=
    exact_.gets x member old (single ▸ List.mem_singleton_self old)
  have balance : s.succeeded tag + (gained old action).count tag =
      s.committed tag + (spent old action).count tag +
        ((s.instances.set i (x.setCalls 0 getList new)).map (Instance.pending tag)).sum := by
    have moved := sum_map_set (Instance.pending tag) isInstance (x.setCalls 0 getList new)
    have before : x.pending tag = GetList.pending tag old := by
      rw [Instance.pending, single]
      exact List.sum_singleton
    have after : (x.setCalls 0 getList new).pending tag = GetList.pending tag new := by
      rw [Instance.pending, isNext]
      split
      · rename_i none
        rw [none]
        rfl
      · exact List.sum_singleton
    rw [before, after] at moved
    have pending := spec.pending
    have total := exact_.balance
    unfold State.pending at total
    omega
  have due : s.committed tag + (spent old action).count tag ≤ s.succeeded tag := by
    rcases quiet old action with isNil | isNil <;> rw [isNil, List.count_nil] at balance
    · have total := exact_.balance
      rw [isNil, List.count_nil]
      omega
    · omega
  have table := exact_.table spec.effect due
  refine ⟨?_, ?_, by push_cast; exact within, fun unput => ?_, balance, table.1, table.2⟩
  · intro y isIn
    rcases List.mem_or_eq_of_mem_set isIn with isOld | rfl
    · exact exact_.fits y isOld
    · exact ⟨new, isNext, spec.fits⟩
  · intro y isIn calls isOwn c isCall isGet
    rcases List.mem_or_eq_of_mem_set isIn with isOld | rfl
    · exact exact_.gets y isOld calls isOwn c isCall isGet
    · rw [isNext] at isOwn
      have isNew : calls = new := by
        split at isOwn
        · cases isOwn
        · exact List.mem_singleton.mp isOwn
      subst isNew
      rcases spec.gets c isCall isGet with ⟨before, isBefore, isGot⟩ | present
      · exact wasPut before isBefore isGot
      · exact (exact_.present.mp present).1
  · have none : (gained old action).count tag = 0 := by
      refine List.count_eq_zero.mpr fun isGained => ?_
      obtain ⟨c, isCall, isGet⟩ := of_gained isGained
      rw [wasPut c isCall isGet] at unput
      cases unput
    exact (congrArg₂ (· + ·) (exact_.unput unput) none).trans (add_zero 0)

end Exact

theorem Exact.step (exact_ : Exact tuner tag s) (positive : 0 < tuner.getCount tag)
    {action : Action Tag Item} (within : Within tuner tag s action)
    (regular : Regular tag s action) (stepped : GetList.step tuner s action = some next) :
    Exact tuner tag next := by
  cases action with
  | put other item =>
      cases stepped
      exact exact_.put positive regular
  | getFromEnv other =>
      cases stepped
      have kept := (getFromEnv_kept 0 s.process other).1
      exact exact_.keep (kept.item tag) (kept.recorded tag)
  | depends other =>
      cases isItem : (s.process.entry other).item with
      | some item =>
          simp only [GetList.step, isItem] at stepped
          cases stepped
          exact exact_
      | none =>
          simp only [GetList.step, isItem] at stepped
          cases stepped
          have kept := kept_missing tuner s.process other
          exact exact_.keep (kept.item tag) (kept.recorded tag)
  | create kind =>
      cases stepped
      exact exact_.create kind
  | execute i fromRange =>
      obtain ⟨x, isInstance, executed⟩ := Option.bind_eq_some_iff.mp stepped
      obtain ⟨-, isNext⟩ := Option.ite_none_right_eq_some.mp executed
      cases isNext
      exact exact_.execute isInstance (regular x isInstance) fromRange
  | call i thread action =>
      obtain ⟨x, isInstance, called⟩ := Option.bind_eq_some_iff.mp stepped
      obtain ⟨calls, isCalls, result⟩ := Option.bind_eq_some_iff.mp called
      obtain ⟨⟨process, getList, new⟩, isStep, rfl⟩ := Option.map_eq_some_iff.mp result
      exact exact_.call isInstance isCalls (within x isInstance calls isCalls) isStep

theorem exact_of_reached (positive : 0 < tuner.getCount tag)
    (reached : Reached (system tuner)
      (fun s action => Within tuner tag s action ∧ Regular tag s action) s) :
    Exact tuner tag s := by
  refine reached.invariant (Exact tuner tag) ?_ ?_
  · rintro _ rfl
    refine ⟨nofun, nofun, positive.le, fun _ => rfl, rfl, ?_, rfl⟩
    exact iff_of_false (fun present => present rfl) (fun both => Bool.false_ne_true both.1)
  · exact fun _ _ _ _ exact_ allowed stepped => exact_.step positive allowed.1 allowed.2 stepped

/-- Local garbage collection is exact. -/
theorem local_gc_exact (positive : 0 < tuner.getCount tag)
    (reached : Reached (system tuner)
      (fun s action => Within tuner tag s action ∧ Regular tag s action) s) :
    (s.present tag ↔ s.wasPut tag = true ∧ (s.committed tag : Int) < tuner.getCount tag) ∧
      (s.present tag →
        (s.process.entry tag).getCount = tuner.getCount tag - s.committed tag) ∧
      s.succeeded tag = s.committed tag + s.pending tag ∧
      ∀ x ∈ s.instances, ∀ calls ∈ x.calls, ∀ c ∈ calls, ∀ rest, c.rest = some (tag :: rest) →
        s.present tag := by
  have exact_ := exact_of_reached positive reached
  refine ⟨exact_.present, fun present => ?_, exact_.balance, ?_⟩
  · have recorded := exact_.recorded
    have below := (exact_.present.mp present).2
    rw [if_neg present, Entry.recorded] at recorded
    split at recorded
    · omega
    · exact recorded
  · intro x isInstance calls isCalls c isCall rest isRest
    have here : 0 < (c.rest.getD []).count tag := by simp [isRest]
    have inCalls : (c.rest.getD []).count tag ≤ GetList.pending tag calls :=
      List.le_sum_of_mem (List.mem_map_of_mem isCall)
    have inInstance : GetList.pending tag calls ≤ x.pending tag :=
      List.le_sum_of_mem (List.mem_map_of_mem isCalls)
    have inState : x.pending tag ≤ s.pending tag :=
      List.le_sum_of_mem (List.mem_map_of_mem isInstance)
    have balance := exact_.balance
    have bound := exact_.bound
    refine exact_.present.mpr ⟨?_, by omega⟩
    by_contra unput
    have := exact_.unput (Bool.eq_false_iff.mpr unput)
    omega

end Runs

/-- Item 5 has the given get-count. -/
def counting (getCount : Nat) (le : (getCount : Int) ≤ intMax) : Tuner 1 Nat where
  consumedOn _ := .single .unknown
  producedOn _ _ := .unknown
  getCount tag := if tag = 5 then getCount else noGetCount
  getCount_le tag := by
    split
    · exact le
    · exact noGetCount_le
  enableGC := 1
  enableGC_pos := Nat.one_pos

/-- The first sub-step of a range succeeds; the second one and a plain step miss an item after they
have got item 5, and the second sub-step is replayed. -/
def replayed : List (Action Nat Nat) :=
  [.put 5 50, .create (.range true), .create .step, .execute 0 false, .call 0 0 .subStep,
    .call 0 0 (.get 5), .call 0 0 (.finish .success), .call 0 0 .decrement, .call 0 0 .decrement,
    .call 0 0 .subStep, .call 0 0 (.get 5), .execute 1 false, .call 1 0 (.get 5),
    .call 0 0 (.get 6), .call 0 0 (.finish .needsExtraWake), .put 6 60, .execute 0 false,
    .call 0 0 .subStep, .call 0 0 (.get 5), .call 0 0 (.get 6), .call 1 0 (.get 7),
    .call 0 0 (.finish .success), .call 0 0 .decrement]

theorem run_replayed :
    ((system (counting 2 (by decide))).run
      (fun s action => Within (counting 2 (by decide)) 5 s action ∧ Regular 5 s action)
      (start Nat Nat) replayed).any (fun s =>
        decide (s.wasPut 5 = true ∧ s.succeeded 5 = 2 ∧ s.committed 5 = 2)) = true := by
  decide +kernel

theorem local_gc_exact_replayed : ∃ s : State Nat Nat,
    (system (counting 2 (by decide))).run
      (fun s action => Within (counting 2 (by decide)) 5 s action ∧ Regular 5 s action)
      (start Nat Nat) replayed = some s ∧ s.wasPut 5 = true ∧ s.succeeded 5 = 2 ∧
    s.pending 5 = 0 ∧ ¬ s.present 5 := by
  obtain ⟨s, isRun, facts⟩ := (Option.any_eq_true ..).mp run_replayed
  obtain ⟨isPut, succeeded, committed⟩ := of_decide_eq_true facts
  have positive : 0 < (counting 2 (by decide)).getCount 5 := by decide
  obtain ⟨present, -, balance, -⟩ :=
    local_gc_exact positive (Reached.run (.initial rfl) _ isRun)
  refine ⟨s, isRun, isPut, succeeded, by omega, fun isPresent => ?_⟩
  have below := (present.mp isPresent).2
  rw [committed] at below
  exact absurd below (by decide)

/-- A step puts item 5 before it misses item 6.  Item 5 is erased before the step is replayed and
puts it again. -/
def putBeforeGet : List (Action Nat Nat) :=
  [.create .step, .create .step, .execute 0 false, .put 5 50, .call 0 0 (.get 6),
    .execute 1 false, .call 1 0 (.get 5), .call 1 0 (.finish .success), .call 1 0 .decrement,
    .call 1 0 .decrement, .put 6 60, .execute 0 false, .put 5 50, .call 0 0 (.get 6),
    .call 0 0 (.finish .success), .call 0 0 .decrement]

theorem run_putBeforeGet :
    ((system (counting 1 (by decide))).run (Within (counting 1 (by decide)) 5) (start Nat Nat)
      putBeforeGet).any (fun s => decide (s.succeeded 5 = 1 ∧ s.committed 5 = 1 ∧
        (s.process.entry 5).item = some 50)) = true := by
  decide +kernel

/-- The item is there again after the last get. -/
theorem local_gc_inexact : ¬ ∀ s : State Nat Nat,
    Reached (system (counting 1 (by decide))) (Within (counting 1 (by decide)) 5) s →
      s.present 5 → s.committed 5 < 1 := by
  intro always
  obtain ⟨s, isRun, facts⟩ := (Option.any_eq_true ..).mp run_putBeforeGet
  obtain ⟨-, committed, isItem⟩ := of_decide_eq_true facts
  have below := always s (Reached.run (.initial rfl) _ isRun) (by simp [State.present, isItem])
  rw [committed] at below
  exact absurd below (by decide)

end CnC.Item.GetList
