import CnC.Item.Gather
import Mathlib.Data.Set.Card

/-!
# Gathering from a quiescent state

No step runs and no message is in flight when a process calls `gather`.  The
messages and the service tasks are those of `gatherStep`; here the tasks visit
the entries of their table one after the other (`for_all`), the table counts its
items (`m_size`), and the process which gathers waits for one token from every
other process.
-/

namespace CnC.Item

open Network Transition

universe u

variable {n : Nat} {Tag Item : Type u}

/-- `keys` are the tags of the entries of each table in the order of `for_all`,
`size` is its number of items, `unvisited` are the tags which the running `for_all`
on a process has still to visit, and `left` is the number of tokens for which
`gather` still waits, if it was called. -/
structure GatherRun (n : Nat) (Tag Item : Type u) where
  base : GatherState n Tag Item
  keys : Fin n → List Tag
  size : Fin n → Nat
  unvisited : Fin n → Option (List Tag)
  left : Option Nat

inductive GatherRunAction (n : Nat) where
  | gather
  | pop
  | forAll (pid : Fin n)
  | visit (pid : Fin n)
  | respond (pid : Fin n)
  | receive (source target : Fin n)

abbrev GatherRun.proc (s : GatherRun n Tag Item) : Fin n → Process n Tag Item :=
  s.base.coll.proc

section System

variable [DecidableEq Tag] [DecidableEq Item] (tuner : Tuner n Tag)

/-- Whether `put_or_delete` calls `put_item` for an item from another process, and
whether `put_item` inserts it. -/
def putsItem (self owner : Fin n) (tag : Tag) : Bool :=
  !decide (tuner.getCount tag = 0 ∧ owner = self)

def inserts (process : Process n Tag Item) (self owner : Fin n) (tag : Tag) : Bool :=
  putsItem tuner self owner tag && (process.entry tag).item.isNone

def GatherRun.index (s : GatherRun n Tag Item) (source target : Fin n) : GatherRun n Tag Item :=
  match s.base.chan source target with
  | .gatherRes owner ((tag, _) :: _) :: _ =>
      { s with
        keys :=
          if putsItem tuner target owner tag ∧ (s.proc target).table tag = none then
            Function.update s.keys target (s.keys target ++ [tag])
          else s.keys
        size :=
          if inserts tuner (s.proc target) target owner tag then
            Function.update s.size target (s.size target + 1)
          else s.size }
  | _ => s

/-- `gather` on the process `root`, the service tasks of the others, and the
messages. -/
def gatherRunStep (root : Fin n) (s : GatherRun n Tag Item) :
    GatherRunAction n → Option (GatherRun n Tag Item)
  | .gather =>
      if s.left = none ∧ (s.proc root).gathering = 0 then
        (gatherStep tuner s.base (.gather root)).map fun base =>
          { s with base := base, left := some (n - 1) }
      else none
  | .pop =>
      match s.left, (s.proc root).gathering with
      | some (left + 1), tokens + 1 => some { s with
          base := { s.base with
            coll := s.base.coll.apply root ({ s.proc root with gathering := tokens }, []) }
          left := some left }
      | _, _ => none
  | .forAll pid =>
      match s.base.tasks pid, s.unvisited pid with
      | _ :: _, none => some { s with
          unvisited := Function.update s.unvisited pid (some (s.keys pid)) }
      | _, _ => none
  | .visit pid =>
      match s.base.tasks pid, s.unvisited pid with
      | (asked, items) :: _, some (tag :: rest) =>
          (gatherStep tuner s.base (.visit pid asked items tag)).map fun base =>
            { s with base := base, unvisited := Function.update s.unvisited pid (some rest) }
      | _, _ => none
  | .respond pid =>
      match s.base.tasks pid, s.unvisited pid with
      | (asked, items) :: _, some [] =>
          (gatherStep tuner s.base (.respond pid asked items)).map fun base =>
            { s with base := base, unvisited := Function.update s.unvisited pid none }
      | _, _ => none
  | .receive source target =>
      (gatherStep tuner s.base (.receive source target)).map fun base =>
        { s.index tuner source target with base := base }

def gatherRunSystem (root : Fin n) (s₀ : GatherRun n Tag Item) :
    System (GatherRun n Tag Item) (GatherRunAction n) where
  Initial s := s = s₀
  step := gatherRunStep tuner root

end System

def GatherRun.Holds (s : GatherRun n Tag Item) (pid : Fin n) (tag : Tag) (owner : Fin n)
    (item : Item) : Prop :=
  ((s.proc pid).entry tag).item = some item ∧ ((s.proc pid).entry tag).owner = some owner

def GatherRun.Owned (s : GatherRun n Tag Item) (owner : Fin n) (tag : Tag) (item : Item) : Prop :=
  s.Holds owner tag owner item

/-- No message is in flight and nothing is gathered.  A stored tag has one owner,
which stores it, and every copy has the value and the owner of the owner's. -/
structure Quiescent (s : GatherRun n Tag Item) : Prop where
  collChan : s.base.coll.chan.Empty
  chan : s.base.chan.Empty
  tasks : ∀ pid, s.base.tasks pid = []
  unvisited : ∀ pid, s.unvisited pid = none
  left : s.left = none
  gathering : ∀ pid, (s.proc pid).gathering = 0
  keys : ∀ pid tag, tag ∈ s.keys pid ↔ (s.proc pid).table tag ≠ none
  size : ∀ pid, s.size pid = Set.ncard {tag | (s.proc pid).Stores tag}
  copies : ∀ pid tag item, ((s.proc pid).entry tag).item = some item →
    ∃ owner, s.Holds pid tag owner item ∧ s.Owned owner tag item
  oneOwner : ∀ tag p q item other, s.Owned p tag item → s.Owned q tag other → p = q

def GatherRun.ownedItems (s : GatherRun n Tag Item) (pid : Fin n) : List (Tag × Item) :=
  (s.keys pid).flatMap (itemGather pid (s.proc pid))

/-- How far the gathering from one process is, with the number of tokens which the
root has got for it: the request is in flight, the task waits, it visits the table,
its answer is in flight or is being put, or is handled. -/
inductive Stage (root : Fin n) (s₀ s : GatherRun n Tag Item) (pid : Fin n) : Nat → Prop
  | requested : s.base.chan root pid = [.gatherReq root] → s.base.chan pid root = [] →
      s.base.tasks pid = [] → s.unvisited pid = none → Stage root s₀ s pid 0
  | waiting : s.base.chan root pid = [] → s.base.chan pid root = [] →
      s.base.tasks pid = [(root, [])] → s.unvisited pid = none → Stage root s₀ s pid 0
  | visiting (before) {rest} : s.base.chan root pid = [] → s.base.chan pid root = [] →
      s.base.tasks pid = [(root, before.flatMap (itemGather pid (s₀.proc pid)))] →
      s.unvisited pid = some rest → s₀.keys pid = before ++ rest → Stage root s₀ s pid 0
  | responded (before) {after} : s.base.chan root pid = [] →
      s.base.chan pid root = [.gatherRes pid after] → s.base.tasks pid = [] →
      s.unvisited pid = none → s₀.ownedItems pid = before ++ after →
      (∀ tag item, (tag, item) ∈ before → (s.proc root).Stores tag) → Stage root s₀ s pid 0
  | handled : s.base.chan root pid = [] → s.base.chan pid root = [] → s.base.tasks pid = [] →
      s.unvisited pid = none →
      (∀ tag item, (tag, item) ∈ s₀.ownedItems pid → (s.proc root).Stores tag) →
      Stage root s₀ s pid 1

/-- The messages, tasks and tokens, before the call and after it. -/
def Progress (root : Fin n) (s₀ s : GatherRun n Tag Item) : Option Nat → Prop
  | none => s.base.chan.Empty ∧ (∀ pid, s.base.tasks pid = []) ∧ (∀ pid, s.unvisited pid = none)
  | some left => left ≤ n - 1 ∧ ∃ done : Fin n → Nat, done root = 0 ∧
      (∀ pid, pid ≠ root → Stage root s₀ s pid (done pid)) ∧
      (s.proc root).gathering + (n - 1 - left) = ∑ pid, done pid

structure GatherInv (root : Fin n) (s₀ s : GatherRun n Tag Item) : Prop where
  collChan : s.base.coll.chan.Empty
  onPuts : s.base.coll.onPuts = s₀.base.coll.onPuts
  others : ∀ pid, pid ≠ root → s.proc pid = s₀.proc pid ∧ s.keys pid = s₀.keys pid
  kept : ∀ tag, (s₀.proc root).Stores tag → (s.proc root).Stores tag
  copies : ∀ tag item, ((s.proc root).entry tag).item = some item →
    ∃ owner, s.Holds root tag owner item ∧ s₀.Owned owner tag item
  finite : {tag | (s.proc root).Stores tag}.Finite
  size : s.size root = Set.ncard {tag | (s.proc root).Stores tag}
  between : ∀ i j, (i = root ↔ j = root) → s.base.chan i j = []
  atRoot : s.base.tasks root = [] ∧ s.unvisited root = none
  progress : Progress root s₀ s s.left

section Invariant

variable {root pid : Fin n} {s₀ s next : GatherRun n Tag Item} {count : Nat}

theorem Stage.frame (stage : Stage root s₀ s pid count)
    (asked : next.base.chan root pid = s.base.chan root pid)
    (answered : next.base.chan pid root = s.base.chan pid root)
    (sameTasks : next.base.tasks pid = s.base.tasks pid)
    (sameUnvisited : next.unvisited pid = s.unvisited pid)
    (mono : ∀ tag, (s.proc root).Stores tag → (next.proc root).Stores tag) :
    Stage root s₀ next pid count := by
  cases stage with
  | requested request noAnswer noTask idle =>
      exact .requested (asked.trans request) (answered.trans noAnswer) (sameTasks.trans noTask)
        (sameUnvisited.trans idle)
  | waiting noRequest noAnswer task idle =>
      exact .waiting (asked.trans noRequest) (answered.trans noAnswer) (sameTasks.trans task)
        (sameUnvisited.trans idle)
  | visiting before noRequest noAnswer task visits isKeys =>
      exact .visiting before (asked.trans noRequest) (answered.trans noAnswer)
        (sameTasks.trans task) (sameUnvisited.trans visits) isKeys
  | responded before noRequest answer noTask idle items stored =>
      exact .responded before (asked.trans noRequest) (answered.trans answer)
        (sameTasks.trans noTask) (sameUnvisited.trans idle) items
        fun tag item listed => mono tag (stored tag item listed)
  | handled noRequest noAnswer noTask idle stored =>
      exact .handled (asked.trans noRequest) (answered.trans noAnswer) (sameTasks.trans noTask)
        (sameUnvisited.trans idle) fun tag item listed => mono tag (stored tag item listed)

theorem Stage.count_le (stage : Stage root s₀ s pid count) : count ≤ 1 := by
  cases stage <;> omega

theorem Stage.of_handled (stage : Stage root s₀ s pid 1) :
    s.base.chan root pid = [] ∧ s.base.chan pid root = [] ∧ s.base.tasks pid = [] ∧
      ∀ tag item, (tag, item) ∈ s₀.ownedItems pid → (s.proc root).Stores tag := by
  cases stage with
  | handled noRequest noAnswer noTask idle stored => exact ⟨noRequest, noAnswer, noTask, stored⟩

theorem Quiescent.mem_keys (quiescent : Quiescent s₀) {tag : Tag} {item : Item}
    (owned : s₀.Owned pid tag item) : tag ∈ s₀.keys pid := by
  refine (quiescent.keys pid tag).mpr fun absent => ?_
  have noItem : ((s₀.proc pid).entry tag).item = none := by
    simp [Process.entry, absent, Entry.placeholder]
  cases noItem.symm.trans owned.1

theorem Quiescent.inv (quiescent : Quiescent s₀) : GatherInv root s₀ s₀ where
  collChan := quiescent.collChan
  onPuts := rfl
  others _ _ := ⟨rfl, rfl⟩
  kept _ stores := stores
  copies := quiescent.copies root
  finite := by
    refine (s₀.keys root).finite_toSet.subset fun tag stores => ?_
    refine (quiescent.keys root tag).mpr fun absent => stores ?_
    simp [Process.entry, absent, Entry.placeholder]
  size := quiescent.size root
  between i j _ := quiescent.chan i j
  atRoot := ⟨quiescent.tasks root, quiescent.unvisited root⟩
  progress := by
    rw [quiescent.left]
    exact ⟨quiescent.chan, quiescent.tasks, quiescent.unvisited⟩

theorem mem_ownedItems {tag : Tag} {item : Item} :
    (tag, item) ∈ s₀.ownedItems pid ↔ tag ∈ s₀.keys pid ∧ s₀.Owned pid tag item := by
  have visited : ∀ key, (tag, item) ∈ itemGather pid (s₀.proc pid) key ↔
      key = tag ∧ s₀.Owned pid tag item := by
    intro key
    unfold itemGather GatherRun.Owned GatherRun.Holds
    split
    · rename_i found present
      split
      · rename_i own
        simp only [List.mem_singleton, Prod.mk.injEq]
        constructor
        · rintro ⟨rfl, rfl⟩
          exact ⟨rfl, present, own⟩
        · rintro ⟨rfl, isItem, -⟩
          exact ⟨rfl, Option.some.inj (isItem.symm.trans present)⟩
      · rename_i foreign
        simp only [List.not_mem_nil, false_iff]
        rintro ⟨rfl, -, own⟩
        exact foreign own
    · rename_i absent
      simp only [List.not_mem_nil, false_iff]
      rintro ⟨rfl, isItem, -⟩
      cases absent.symm.trans isItem
  simp only [GatherRun.ownedItems, List.mem_flatMap, visited]
  exact ⟨fun ⟨_, listed, same, owned⟩ => ⟨same ▸ listed, owned⟩,
    fun ⟨listed, owned⟩ => ⟨tag, listed, rfl, owned⟩⟩

theorem GatherInv.call (inv : GatherInv root s₀ s) (fresh : s.left = none)
    (noToken : (s.proc root).gathering = 0) :
    GatherInv root s₀ { s with
      base := { s.base with chan := s.base.chan.post root (Network.others root) (.gatherReq root) }
      left := some (n - 1) } := by
  have idle := inv.progress
  rw [fresh] at idle
  obtain ⟨empty, noTasks, noVisits⟩ := idle
  have posted : ∀ i j, s.base.chan.post root (Network.others root) (.gatherReq root) i j =
      if i = root ∧ j ≠ root then [.gatherReq root] else [] := by
    intro i j
    rw [post_eq (nodup_others root), empty i j, List.nil_append]
    simp only [mem_others]
  refine ⟨inv.collChan, inv.onPuts, inv.others, inv.kept, inv.copies, inv.finite, inv.size, ?_,
    inv.atRoot, le_rfl, fun _ => 0, rfl, ?_, ?_⟩
  · intro i j between
    refine (posted i j).trans (if_neg ?_)
    rintro ⟨fromRoot, toOther⟩
    exact toOther (between.mp fromRoot)
  · intro pid other
    refine .requested ?_ ?_ (noTasks pid) (noVisits pid)
    · exact (posted root pid).trans (if_pos ⟨rfl, other⟩)
    · exact (posted pid root).trans (if_neg fun both => both.2 rfl)
  · simpa [GatherRun.proc] using noToken

/-- The queue `m_gathering` of the root changes, and messages and what `gather`
waits for. -/
theorem GatherInv.setTokens (inv : GatherInv root s₀ s) {tokens : Nat}
    {chan : Channels (Fin n) (GatherMsg n Tag Item)} {left : Option Nat}
    (between : ∀ i j, (i = root ↔ j = root) → chan i j = [])
    (progress : Progress root s₀ { s with
      base := { s.base with
        coll := s.base.coll.apply root ({ s.proc root with gathering := tokens }, [])
        chan := chan }
      left := left } left) :
    GatherInv root s₀ { s with
      base := { s.base with
        coll := s.base.coll.apply root ({ s.proc root with gathering := tokens }, [])
        chan := chan }
      left := left } := by
  have atRoot : (s.base.coll.apply root ({ s.proc root with gathering := tokens }, [])).proc root =
      { s.proc root with gathering := tokens } := Function.update_self _ _ _
  refine ⟨?_, inv.onPuts, ?_, ?_, ?_, ?_, ?_, between, inv.atRoot, progress⟩
  · intro i j
    simpa [State.apply] using inv.collChan i j
  · intro pid other
    refine ⟨?_, (inv.others pid other).2⟩
    exact (Function.update_of_ne other _ s.proc).trans (inv.others pid other).1
  · intro tag stores
    simp only [GatherRun.proc, atRoot]
    exact inv.kept tag stores
  · intro tag item
    simp only [GatherRun.Holds, GatherRun.proc, atRoot]
    exact inv.copies tag item
  · simp only [GatherRun.proc, atRoot]
    exact inv.finite
  · simp only [GatherRun.proc, atRoot]
    exact inv.size

theorem GatherInv.pop (inv : GatherInv root s₀ s) {left tokens : Nat}
    (waits : s.left = some (left + 1)) (token : (s.proc root).gathering = tokens + 1) :
    GatherInv root s₀ { s with
      base := { s.base with
        coll := s.base.coll.apply root ({ s.proc root with gathering := tokens }, []) }
      left := some left } := by
  have progress := inv.progress
  rw [waits] at progress
  obtain ⟨bound, done, none, stages, total⟩ := progress
  have atRoot : (s.base.coll.apply root ({ s.proc root with gathering := tokens }, [])).proc root =
      { s.proc root with gathering := tokens } := Function.update_self _ _ _
  refine inv.setTokens inv.between ⟨Nat.le_of_succ_le bound, done, none, ?_, ?_⟩
  · intro pid other
    refine (stages pid other).frame rfl rfl rfl rfl fun tag stores => ?_
    simp only [GatherRun.proc, atRoot]
    exact stores
  · simp only [GatherRun.proc, atRoot]
    rw [← total, token]
    omega

theorem Progress.change {left : Nat} (progress : Progress root s₀ s (some left)) {pid : Fin n}
    (other : pid ≠ root)
    (stage : ∀ count, Stage root s₀ s pid count → Stage root s₀ next pid count)
    (mono : ∀ tag, (s.proc root).Stores tag → (next.proc root).Stores tag)
    (sameTokens : (next.proc root).gathering = (s.proc root).gathering)
    (elsewhere : ∀ q, q ≠ pid → q ≠ root → next.base.chan root q = s.base.chan root q ∧
      next.base.chan q root = s.base.chan q root ∧ next.base.tasks q = s.base.tasks q ∧
      next.unvisited q = s.unvisited q) : Progress root s₀ next (some left) := by
  obtain ⟨bound, done, none, stages, total⟩ := progress
  refine ⟨bound, done, none, fun q otherQ => ?_, by rw [sameTokens, total]⟩
  by_cases same : q = pid
  · subst same
    exact stage _ (stages q other)
  · obtain ⟨asked, answered, sameTasks, sameUnvisited⟩ := elsewhere q same otherQ
    exact (stages q otherQ).frame asked answered sameTasks sameUnvisited mono

theorem GatherInv.of_task (inv : GatherInv root s₀ s) {task : Fin n × List (Tag × Item)}
    {tasks : List (Fin n × List (Tag × Item))} (running : s.base.tasks pid = task :: tasks) :
    pid ≠ root ∧ ∃ left, s.left = some left := by
  refine ⟨?_, ?_⟩
  · rintro rfl
    rw [inv.atRoot.1] at running
    cases running
  · cases called : s.left with
    | some left => exact ⟨left, rfl⟩
    | none =>
        have idle := inv.progress
        rw [called] at idle
        rw [idle.2.1 pid] at running
        cases running

theorem Stage.of_idle (stage : Stage root s₀ s pid count) {task : Fin n × List (Tag × Item)}
    {tasks : List (Fin n × List (Tag × Item))} (running : s.base.tasks pid = task :: tasks)
    (idle : s.unvisited pid = none) :
    count = 0 ∧ s.base.chan root pid = [] ∧ s.base.chan pid root = [] ∧
      s.base.tasks pid = [(root, [])] := by
  cases stage with
  | requested request noAnswer noTask idle => cases noTask.symm.trans running
  | waiting noRequest noAnswer task idle => exact ⟨rfl, noRequest, noAnswer, task⟩
  | visiting before noRequest noAnswer task visits isKeys => cases idle.symm.trans visits
  | responded before noRequest answer noTask idle items stored => cases noTask.symm.trans running
  | handled noRequest noAnswer noTask idle stored => cases noTask.symm.trans running

theorem Stage.of_visits (stage : Stage root s₀ s pid count) {rest : List Tag}
    (visits : s.unvisited pid = some rest) :
    ∃ before, count = 0 ∧ s.base.chan root pid = [] ∧ s.base.chan pid root = [] ∧
      s.base.tasks pid = [(root, before.flatMap (itemGather pid (s₀.proc pid)))] ∧
      s₀.keys pid = before ++ rest := by
  cases stage with
  | requested request noAnswer noTask idle => cases idle.symm.trans visits
  | waiting noRequest noAnswer task idle => cases idle.symm.trans visits
  | visiting before noRequest noAnswer task soFar isKeys =>
      cases soFar.symm.trans visits
      exact ⟨before, rfl, noRequest, noAnswer, task, isKeys⟩
  | responded before noRequest answer noTask idle items stored => cases idle.symm.trans visits
  | handled noRequest noAnswer noTask idle stored => cases idle.symm.trans visits

theorem GatherInv.forAll (inv : GatherInv root s₀ s) {task : Fin n × List (Tag × Item)}
    {tasks : List (Fin n × List (Tag × Item))} (running : s.base.tasks pid = task :: tasks)
    (idle : s.unvisited pid = none) :
    GatherInv root s₀ { s with
      unvisited := Function.update s.unvisited pid (some (s.keys pid)) } := by
  obtain ⟨other, left, called⟩ := inv.of_task running
  have progress := inv.progress
  rw [called] at progress
  refine ⟨inv.collChan, inv.onPuts, inv.others, inv.kept, inv.copies, inv.finite, inv.size,
    inv.between, ⟨inv.atRoot.1, ?_⟩, ?_⟩
  · exact (Function.update_of_ne other.symm _ s.unvisited).trans inv.atRoot.2
  · rw [called]
    refine progress.change other ?_ (fun _ => id) rfl ?_
    · intro count stage
      obtain ⟨rfl, noRequest, noAnswer, task⟩ := stage.of_idle running idle
      refine .visiting [] noRequest noAnswer task (Function.update_self _ _ _) ?_
      exact (inv.others pid other).2.symm
    · exact fun q different _ => ⟨rfl, rfl, rfl, Function.update_of_ne different _ _⟩

variable [DecidableEq Tag] [DecidableEq Item] {tuner : Tuner n Tag}

theorem GatherInv.visit (inv : GatherInv root s₀ s) {asked : Fin n} {items : List (Tag × Item)}
    {tasks : List (Fin n × List (Tag × Item))} {tag : Tag} {rest : List Tag}
    {base : GatherState n Tag Item} (running : s.base.tasks pid = (asked, items) :: tasks)
    (visits : s.unvisited pid = some (tag :: rest))
    (visited : gatherStep tuner s.base (.visit pid asked items tag) = some base) :
    GatherInv root s₀ { s with
      base := base, unvisited := Function.update s.unvisited pid (some rest) } := by
  obtain ⟨other, left, called⟩ := inv.of_task running
  have progress := inv.progress
  rw [called] at progress
  simp only [gatherStep, running, List.mem_cons_self, if_true, List.erase_cons_head,
    Option.some.injEq] at visited
  subst visited
  refine ⟨inv.collChan, inv.onPuts, inv.others, inv.kept, inv.copies, inv.finite, inv.size,
    inv.between, ⟨?_, ?_⟩, ?_⟩
  · exact (Function.update_of_ne other.symm _ s.base.tasks).trans inv.atRoot.1
  · exact (Function.update_of_ne other.symm _ s.unvisited).trans inv.atRoot.2
  · rw [called]
    refine progress.change other ?_ (fun _ => id) rfl ?_
    · intro count stage
      obtain ⟨before, rfl, noRequest, noAnswer, task, isKeys⟩ := stage.of_visits visits
      cases task.symm.trans running
      have sameProc : s.base.coll.proc pid = s₀.proc pid := (inv.others pid other).1
      refine .visiting (before ++ [tag]) noRequest noAnswer ?_ (Function.update_self _ _ _) ?_
      · refine (Function.update_self _ _ _).trans ?_
        rw [List.flatMap_append, List.flatMap_singleton, sameProc]
      · rw [isKeys, List.append_assoc]
        rfl
    · exact fun q different _ => ⟨rfl, rfl, Function.update_of_ne different _ _,
        Function.update_of_ne different _ _⟩

theorem GatherInv.respond (inv : GatherInv root s₀ s) {asked : Fin n}
    {items : List (Tag × Item)} {tasks : List (Fin n × List (Tag × Item))}
    {base : GatherState n Tag Item} (running : s.base.tasks pid = (asked, items) :: tasks)
    (visits : s.unvisited pid = some [])
    (responded : gatherStep tuner s.base (.respond pid asked items) = some base) :
    GatherInv root s₀ { s with
      base := base, unvisited := Function.update s.unvisited pid none } := by
  obtain ⟨other, left, called⟩ := inv.of_task running
  have progress := inv.progress
  rw [called] at progress
  have isAsked : asked = root ∧ tasks = [] := by
    obtain ⟨-, done, -, stages, -⟩ := progress
    obtain ⟨before, -, -, -, task, -⟩ := (stages pid other).of_visits visits
    cases task.symm.trans running
    exact ⟨rfl, rfl⟩
  obtain ⟨rfl, rfl⟩ := isAsked
  simp only [gatherStep, running, List.mem_cons_self, if_true, List.erase_cons_head,
    Option.some.injEq] at responded
  subst responded
  have sent := send_singleton s.base.chan pid asked (.gatherRes pid items)
  refine ⟨inv.collChan, inv.onPuts, inv.others, inv.kept, inv.copies, inv.finite, inv.size,
    ?_, ⟨?_, ?_⟩, ?_⟩
  · intro i j between
    refine (sent i j).trans ((if_neg ?_).trans (inv.between i j between))
    rintro ⟨rfl, rfl⟩
    exact other (between.mpr rfl)
  · exact (Function.update_of_ne other.symm _ s.base.tasks).trans inv.atRoot.1
  · exact (Function.update_of_ne other.symm _ s.unvisited).trans inv.atRoot.2
  · rw [called]
    refine progress.change other ?_ (fun _ => id) rfl ?_
    · intro count stage
      obtain ⟨before, rfl, noRequest, noAnswer, task, isKeys⟩ := stage.of_visits visits
      cases task.symm.trans running
      have answer := (sent pid asked).trans (if_pos ⟨rfl, rfl⟩)
      rw [noAnswer, List.nil_append] at answer
      refine .responded [] ?_ answer (Function.update_self _ _ _) (Function.update_self _ _ _)
        ?_ ?_
      · exact (sent asked pid).trans ((if_neg fun both => other both.2).trans noRequest)
      · rw [GatherRun.ownedItems, isKeys, List.append_nil, List.nil_append]
      · exact fun tag item listed => by cases listed
    · intro q different otherQ
      refine ⟨(sent asked q).trans (if_neg fun both => otherQ both.2),
        (sent q asked).trans (if_neg fun both => different both.1),
        Function.update_of_ne different _ _, Function.update_of_ne different _ _⟩

omit [DecidableEq Tag] [DecidableEq Item] in
theorem GatherInv.of_message (inv : GatherInv root s₀ s) {source target : Fin n}
    {message : GatherMsg n Tag Item} {rest : List (GatherMsg n Tag Item)}
    (head : s.base.chan source target = message :: rest) :
    (∃ left, s.left = some left) ∧
      ((source = root ∧ target ≠ root) ∨ (source ≠ root ∧ target = root)) := by
  constructor
  · cases called : s.left with
    | some left => exact ⟨left, rfl⟩
    | none =>
        have idle := inv.progress
        rw [called] at idle
        cases (idle.1 source target).symm.trans head
  · by_cases fromRoot : source = root <;> by_cases toRoot : target = root
    · cases (inv.between source target (by simp [fromRoot, toRoot])).symm.trans head
    · exact .inl ⟨fromRoot, toRoot⟩
    · exact .inr ⟨fromRoot, toRoot⟩
    · cases (inv.between source target (by simp [fromRoot, toRoot])).symm.trans head

omit [DecidableEq Tag] [DecidableEq Item] in
theorem Stage.of_request (stage : Stage root s₀ s pid count) {message : GatherMsg n Tag Item}
    {rest : List (GatherMsg n Tag Item)} (head : s.base.chan root pid = message :: rest) :
    count = 0 ∧ message = .gatherReq root ∧ rest = [] ∧ s.base.chan pid root = [] ∧
      s.base.tasks pid = [] ∧ s.unvisited pid = none := by
  cases stage with
  | requested request noAnswer noTask idle =>
      cases request.symm.trans head
      exact ⟨rfl, rfl, rfl, noAnswer, noTask, idle⟩
  | waiting noRequest noAnswer task idle => cases noRequest.symm.trans head
  | visiting before noRequest noAnswer task soFar isKeys => cases noRequest.symm.trans head
  | responded before noRequest answer noTask idle items stored => cases noRequest.symm.trans head
  | handled noRequest noAnswer noTask idle stored => cases noRequest.symm.trans head

omit [DecidableEq Tag] [DecidableEq Item] in
theorem Stage.of_answer (stage : Stage root s₀ s pid count) {message : GatherMsg n Tag Item}
    {rest : List (GatherMsg n Tag Item)} (head : s.base.chan pid root = message :: rest) :
    ∃ before after, count = 0 ∧ message = .gatherRes pid after ∧ rest = [] ∧
      s.base.chan root pid = [] ∧ s.base.tasks pid = [] ∧ s.unvisited pid = none ∧
      s₀.ownedItems pid = before ++ after ∧
      ∀ tag item, (tag, item) ∈ before → (s.proc root).Stores tag := by
  cases stage with
  | requested request noAnswer noTask idle => cases noAnswer.symm.trans head
  | waiting noRequest noAnswer task idle => cases noAnswer.symm.trans head
  | visiting before noRequest noAnswer task soFar isKeys => cases noAnswer.symm.trans head
  | responded before noRequest answer noTask idle items stored =>
      cases answer.symm.trans head
      exact ⟨before, _, rfl, rfl, rfl, noRequest, noTask, idle, items, stored⟩
  | handled noRequest noAnswer noTask idle stored => cases noAnswer.symm.trans head

omit [DecidableEq Tag] [DecidableEq Item] in
theorem setQueue_elsewhere {channels : Channels (Fin n) (GatherMsg n Tag Item)}
    {source target : Fin n} (queue : List (GatherMsg n Tag Item)) {i j : Fin n}
    (elsewhere : i ≠ source ∨ j ≠ target) :
    channels.setQueue source target queue i j = channels i j :=
  Channels.setQueue_other _ _ fun same => elsewhere.elim (· same.1) (· same.2)

omit [DecidableEq Tag] [DecidableEq Item] in
theorem GatherInv.request (inv : GatherInv root s₀ s) {rest : List (GatherMsg n Tag Item)}
    {asked : Fin n} (other : pid ≠ root)
    (head : s.base.chan root pid = .gatherReq asked :: rest) :
    GatherInv root s₀ { s with base := { s.base with
      chan := s.base.chan.setQueue root pid rest
      tasks := Function.update s.base.tasks pid ((asked, []) :: s.base.tasks pid) } } := by
  obtain ⟨⟨left, called⟩, -⟩ := inv.of_message head
  have progress := inv.progress
  rw [called] at progress
  refine ⟨inv.collChan, inv.onPuts, inv.others, inv.kept, inv.copies, inv.finite, inv.size,
    ?_, ⟨?_, inv.atRoot.2⟩, ?_⟩
  · intro i j between
    refine (setQueue_elsewhere rest ?_).trans (inv.between i j between)
    by_cases toPid : j = pid
    · exact .inl fun fromRoot => other (toPid ▸ between.mp fromRoot)
    · exact .inr toPid
  · exact (Function.update_of_ne other.symm _ s.base.tasks).trans inv.atRoot.1
  · rw [called]
    refine progress.change other ?_ (fun _ => id) rfl ?_
    · intro count stage
      obtain ⟨rfl, isRequest, rfl, noAnswer, noTask, idle⟩ := stage.of_request head
      cases isRequest
      refine .waiting (Channels.setQueue_same _ _ _ _) ?_ ?_ idle
      · exact (setQueue_elsewhere [] (.inl other)).trans noAnswer
      · refine (Function.update_self _ _ _).trans ?_
        rw [noTask]
    · intro q different otherQ
      exact ⟨setQueue_elsewhere rest (.inr different), setQueue_elsewhere rest (.inl otherQ),
        Function.update_of_ne different _ _, rfl⟩

omit [DecidableEq Tag] [DecidableEq Item] in
/-- What putting an item of another process changes at the root. -/
structure PutAtRoot (root owner : Fin n) (tag : Tag) (item : Item) (coll after : State n Tag Item) :
    Prop where
  chan : after.chan = coll.chan
  onPuts : after.onPuts = coll.onPuts
  others : ∀ pid, pid ≠ root → after.proc pid = coll.proc pid
  gathering : (after.proc root).gathering = (coll.proc root).gathering
  stores : {other | (after.proc root).Stores other} =
    insert tag {other | (coll.proc root).Stores other}
  entries : ∀ other, (after.proc root).entry other = (coll.proc root).entry other ∨
    (other = tag ∧ ((after.proc root).entry other).item = some item ∧
      ((after.proc root).entry other).owner = some owner)

omit [DecidableEq Item] in
theorem putAtRoot_insertAt (tuner : Tuner n Tag) (coll : State n Tag Item) {owner : Fin n}
    (other : owner ≠ root) (tag : Tag) (item : Item) :
    PutAtRoot root owner tag item coll
      (coll.insertAt tuner root (coll.proc root) tag item owner) := by
  rcases putOrDelete_cases tuner root (coll.proc root) tag item owner with
    ⟨-, isRoot, -⟩ | ⟨present, found⟩ | ⟨absent, -, entry, isItem, isOwner, -, -, -, found⟩
  · exact absurd isRoot other
  · have same : coll.insertAt tuner root (coll.proc root) tag item owner = coll := by
      simp [State.insertAt, State.apply, found]
    rw [same]
    have already : tag ∈ {other | (coll.proc root).Stores other} := present
    exact ⟨rfl, rfl, fun _ _ => rfl, rfl, (Set.insert_eq_of_mem already).symm, fun _ => .inl rfl⟩
  · have inserted : coll.insertAt tuner root (coll.proc root) tag item owner =
        coll.apply root ((coll.proc root).setEntry tag (some entry), []) := by
      simp [State.insertAt, State.apply, found, other]
    rw [inserted]
    have atRoot : (coll.apply root ((coll.proc root).setEntry tag (some entry), [])).proc root =
        (coll.proc root).setEntry tag (some entry) := Function.update_self _ _ _
    refine ⟨Channels.send_nil _ _, rfl, fun pid different => Function.update_of_ne different _ _,
      ?_, ?_, ?_⟩
    · rw [atRoot]
      rfl
    · rw [atRoot]
      ext key
      by_cases same : key = tag
      · subst same
        simp [Process.Stores, entry_setEntry, isItem]
      · simp [Process.Stores, entry_setEntry, same]
    · intro key
      rw [atRoot, entry_setEntry]
      by_cases same : key = tag
      · rw [if_pos same]
        exact .inr ⟨same, isItem, isOwner⟩
      · exact .inl (if_neg same)

omit [DecidableEq Tag] [DecidableEq Item] in
theorem inserts_iff {owner : Fin n} (tuner : Tuner n Tag) (process : Process n Tag Item)
    (other : owner ≠ root) (tag : Tag) :
    inserts tuner process root owner tag = true ↔ ¬ process.Stores tag := by
  simp [inserts, putsItem, other, Process.Stores]

omit [DecidableEq Item] in
theorem GatherInv.insert (inv : GatherInv root s₀ s) {owner : Fin n} {tag : Tag} {item : Item}
    {items : List (Tag × Item)} {rest : List (GatherMsg n Tag Item)} (other : pid ≠ root)
    (head : s.base.chan pid root = .gatherRes owner ((tag, item) :: items) :: rest) :
    GatherInv root s₀ { s.index tuner pid root with
      base := { s.base with
        coll := s.base.coll.insertAt tuner root (s.base.coll.proc root) tag item owner
        chan := s.base.chan.setQueue pid root (.gatherRes owner items :: rest) } } := by
  obtain ⟨⟨left, called⟩, -⟩ := inv.of_message head
  have progress := inv.progress
  rw [called] at progress
  obtain ⟨isPid, owned⟩ : owner = pid ∧ s₀.Owned pid tag item := by
    obtain ⟨-, done, -, stages, -⟩ := progress
    obtain ⟨before, after, -, isAnswer, -, -, -, -, isItems, -⟩ := (stages pid other).of_answer head
    cases isAnswer
    have listed : (tag, item) ∈ s₀.ownedItems pid := by simp [isItems]
    exact ⟨rfl, (mem_ownedItems.mp listed).2⟩
  subst isPid
  have put := putAtRoot_insertAt tuner s.base.coll other tag item
  have index : s.index tuner owner root = { s with
      keys :=
        if putsItem tuner root owner tag ∧ (s.proc root).table tag = none then
          Function.update s.keys root (s.keys root ++ [tag])
        else s.keys
      size :=
        if inserts tuner (s.proc root) root owner tag then
          Function.update s.size root (s.size root + 1)
        else s.size } := by
    simp only [GatherRun.index, head]
  rw [index]
  have mono : ∀ key, (s.proc root).Stores key → ((s.base.coll.insertAt tuner root
      (s.base.coll.proc root) tag item owner).proc root).Stores key := by
    intro key stores
    exact (Set.ext_iff.mp put.stores key).mpr (Set.mem_insert_of_mem tag stores)
  refine ⟨?collChan, put.onPuts.trans inv.onPuts, ?others, ?kept, ?copies, ?finite, ?size,
    ?between, inv.atRoot, ?progress⟩
  case collChan =>
    intro i j
    exact (congrFun (congrFun put.chan i) j).trans (inv.collChan i j)
  case others =>
    intro q otherQ
    refine ⟨(put.others q otherQ).trans (inv.others q otherQ).1, ?_⟩
    refine Eq.trans ?_ (inv.others q otherQ).2
    dsimp only
    split
    · exact Function.update_of_ne otherQ _ _
    · rfl
  case kept => exact fun key stores => mono key (inv.kept key stores)
  case copies =>
    intro key v isItem
    rcases put.entries key with same | ⟨rfl, isNew, isOwner⟩
    · obtain ⟨o, ⟨wasItem, wasOwner⟩, ownedBy⟩ :=
        inv.copies key v ((congrArg Entry.item same).symm.trans isItem)
      exact ⟨o, ⟨isItem, (congrArg Entry.owner same).trans wasOwner⟩, ownedBy⟩
    · cases isNew.symm.trans isItem
      exact ⟨owner, ⟨isNew, isOwner⟩, owned⟩
  case finite =>
    have stored := put.stores
    exact stored ▸ inv.finite.insert tag
  case size =>
    refine Eq.trans ?_ (congrArg Set.ncard put.stores).symm
    dsimp only
    by_cases present : (s.proc root).Stores tag
    · have already : tag ∈ {key | (s.proc root).Stores key} := present
      rw [if_neg fun new => (inserts_iff tuner _ other tag).mp new present]
      exact inv.size.trans (congrArg Set.ncard (Set.insert_eq_of_mem already).symm)
    · rw [if_pos ((inserts_iff tuner _ other tag).mpr present), Function.update_self, inv.size]
      exact (Set.ncard_insert_of_notMem present inv.finite).symm
  case between =>
    intro i j between
    refine (setQueue_elsewhere _ ?_).trans (inv.between i j between)
    by_cases fromOwner : i = owner
    · exact .inr fun toRoot => other (fromOwner ▸ between.mpr toRoot)
    · exact .inl fromOwner
  case progress =>
    dsimp only
    rw [called]
    refine progress.change other ?_ mono put.gathering ?_
    · intro count stage
      obtain ⟨before, after, rfl, isAnswer, rfl, noRequest, noTask, idle, isItems, stored⟩ :=
        stage.of_answer head
      cases isAnswer
      refine .responded (before ++ [(tag, item)]) ?_ (Channels.setQueue_same _ _ _ _) noTask idle
        ?_ ?_
      · exact (setQueue_elsewhere _ (.inl other.symm)).trans noRequest
      · rw [isItems, List.append_assoc]
        rfl
      · intro key v listed
        rcases List.mem_append.mp listed with old | new
        · exact mono key (stored key v old)
        · cases List.mem_singleton.mp new
          exact (Set.ext_iff.mp put.stores tag).mpr (Set.mem_insert _ _)
    · intro q different otherQ
      exact ⟨setQueue_elsewhere _ (.inl other.symm), setQueue_elsewhere _ (.inl different),
        rfl, rfl⟩

omit [DecidableEq Tag] [DecidableEq Item] in
theorem GatherInv.token (inv : GatherInv root s₀ s) {owner : Fin n}
    {rest : List (GatherMsg n Tag Item)} (other : pid ≠ root)
    (head : s.base.chan pid root = .gatherRes owner [] :: rest) :
    GatherInv root s₀ { s with
      base := { s.base with
        coll := s.base.coll.apply root
          ({ s.proc root with gathering := (s.proc root).gathering + 1 }, [])
        chan := s.base.chan.setQueue pid root rest } } := by
  obtain ⟨⟨left, called⟩, -⟩ := inv.of_message head
  have progress := inv.progress
  rw [called] at progress
  obtain ⟨bound, done, none, stages, total⟩ := progress
  obtain ⟨before, after, notYet, isAnswer, rfl, noRequest, noTask, idle, isItems, stored⟩ :=
    (stages pid other).of_answer head
  cases isAnswer
  have atRoot : (s.base.coll.apply root
      ({ s.proc root with gathering := (s.proc root).gathering + 1 }, [])).proc root =
      { s.proc root with gathering := (s.proc root).gathering + 1 } := Function.update_self _ _ _
  refine inv.setTokens ?between ?progress
  case between =>
    intro i j between
    refine (setQueue_elsewhere _ ?_).trans (inv.between i j between)
    by_cases fromPid : i = pid
    · exact .inr fun toRoot => other (fromPid ▸ between.mpr toRoot)
    · exact .inl fromPid
  case progress =>
    rw [called]
    refine ⟨bound, Function.update done pid 1, ?_, ?_, ?_⟩
    · rw [Function.update_of_ne other.symm, none]
    · intro q otherQ
      by_cases same : q = pid
      · subst same
        rw [Function.update_self]
        refine .handled ?_ (Channels.setQueue_same _ _ _ _) noTask idle ?_
        · exact (setQueue_elsewhere _ (.inl other.symm)).trans noRequest
        · intro tag item listed
          rw [isItems, List.append_nil] at listed
          simp only [GatherRun.proc, atRoot]
          exact stored tag item listed
      · rw [Function.update_of_ne same]
        refine (stages q otherQ).frame (setQueue_elsewhere _ (.inl other.symm))
          (setQueue_elsewhere _ (.inl same)) rfl rfl fun tag stores => ?_
        simp only [GatherRun.proc, atRoot]
        exact stores
    · have oneMore : ∑ q, Function.update done pid 1 q = ∑ q, done q + 1 := by
        have split := Finset.sum_update_of_mem (Finset.mem_univ pid) done 1
        have erased := Finset.add_sum_erase Finset.univ done (Finset.mem_univ pid)
        rw [Finset.sdiff_singleton_eq_erase] at split
        omega
      simp only [GatherRun.proc, atRoot]
      rw [oneMore, ← total]
      simp only [GatherRun.proc]
      omega

omit [DecidableEq Tag] [DecidableEq Item] in
theorem GatherInv.kinds (inv : GatherInv root s₀ s) {source target : Fin n}
    {message : GatherMsg n Tag Item} {rest : List (GatherMsg n Tag Item)}
    (head : s.base.chan source target = message :: rest) :
    (source = root ∧ target ≠ root ∧ message = .gatherReq root) ∨
      (source ≠ root ∧ target = root ∧ ∃ items, message = .gatherRes source items) := by
  obtain ⟨⟨left, called⟩, between⟩ := inv.of_message head
  have progress := inv.progress
  rw [called] at progress
  obtain ⟨-, done, -, stages, -⟩ := progress
  rcases between with ⟨rfl, toOther⟩ | ⟨fromOther, rfl⟩
  · exact .inl ⟨rfl, toOther, ((stages target toOther).of_request head).2.1⟩
  · obtain ⟨before, after, -, isAnswer, -⟩ := (stages source fromOther).of_answer head
    exact .inr ⟨fromOther, rfl, after, isAnswer⟩

theorem GatherInv.step (inv : GatherInv root s₀ s) {action : GatherRunAction n}
    (stepped : gatherRunStep tuner root s action = some next) : GatherInv root s₀ next := by
  cases action with
  | gather =>
      simp only [gatherRunStep, Option.ite_none_right_eq_some] at stepped
      obtain ⟨⟨fresh, noToken⟩, taken⟩ := stepped
      cases taken
      exact inv.call fresh noToken
  | pop =>
      simp only [gatherRunStep] at stepped
      split at stepped
      · rename_i waits token
        cases stepped
        exact inv.pop waits token
      · cases stepped
  | forAll pid =>
      simp only [gatherRunStep] at stepped
      split at stepped
      · rename_i running idle
        cases stepped
        exact inv.forAll running idle
      · cases stepped
  | visit pid =>
      simp only [gatherRunStep] at stepped
      split at stepped
      · rename_i running visits
        obtain ⟨base, visited, rfl⟩ := Option.map_eq_some_iff.mp stepped
        exact inv.visit running visits visited
      · cases stepped
  | respond pid =>
      simp only [gatherRunStep] at stepped
      split at stepped
      · rename_i running visits
        obtain ⟨base, responded, rfl⟩ := Option.map_eq_some_iff.mp stepped
        exact inv.respond running visits responded
      · cases stepped
  | receive source target =>
      simp only [gatherRunStep] at stepped
      obtain ⟨base, received, rfl⟩ := Option.map_eq_some_iff.mp stepped
      simp only [gatherStep] at received
      split at received
      · cases received
      · rename_i message rest head
        cases received
        rcases inv.kinds head with ⟨rfl, other, rfl⟩ | ⟨other, rfl, items, rfl⟩
        · have index : s.index tuner source target = s := by simp only [GatherRun.index, head]
          rw [index]
          exact inv.request other head
        · cases items with
          | nil =>
              have index : s.index tuner source target = s := by simp only [GatherRun.index, head]
              rw [index]
              exact inv.token other head
          | cons listed items => exact inv.insert other head

theorem gatherInv_of_reached (quiescent : Quiescent s₀)
    (reached : Reachable (gatherRunSystem tuner root s₀) s) : GatherInv root s₀ s := by
  refine Reached.invariant (GatherInv root s₀) ?_ ?_ reached
  · rintro _ rfl
    exact quiescent.inv
  · intro before action next _ inv _ stepped
    exact inv.step stepped

omit [DecidableEq Tag] [DecidableEq Item] in
theorem Progress.returned (progress : Progress root s₀ s (some 0)) :
    (s.proc root).gathering = 0 ∧ ∀ pid, pid ≠ root → Stage root s₀ s pid 1 := by
  obtain ⟨-, done, none, stages, total⟩ := progress
  have atMost : ∀ pid, done pid ≤ if pid = root then 0 else 1 := by
    intro pid
    by_cases same : pid = root
    · simp [same, none]
    · rw [if_neg same]
      exact (stages pid same).count_le
  have bound := Finset.sum_le_sum fun pid (_ : pid ∈ Finset.univ) => atMost pid
  rw [sum_others, Fintype.card_fin] at bound
  refine ⟨by omega, fun pid other => ?_⟩
  have one := count_of_sum atMost (by rw [Fintype.card_fin]; omega) pid other
  exact one ▸ stages pid other

theorem GatherInv.finished (inv : GatherInv root s₀ s) {left : Nat} (called : s.left = some left)
    (stuck : ∀ action, gatherRunStep tuner root s action = none) : left = 0 := by
  have received : ∀ source target, s.base.chan source target = [] := by
    intro source target
    have none := stuck (.receive source target)
    cases head : s.base.chan source target with
    | nil => rfl
    | cons message rest => simp [gatherRunStep, gatherStep, head] at none
  have progress := inv.progress
  rw [called] at progress
  obtain ⟨bound, done, none, stages, total⟩ := progress
  have handled : ∀ pid, done pid = if pid = root then 0 else 1 := by
    intro pid
    by_cases same : pid = root
    · simp [same, none]
    · rw [if_neg same]
      have visits := stuck (.visit pid)
      have starts := stuck (.forAll pid)
      have responds := stuck (.respond pid)
      generalize isCount : done pid = count
      have stage := isCount ▸ stages pid same
      cases stage with
      | requested request noAnswer noTask idle => cases (received root pid).symm.trans request
      | waiting noRequest noAnswer task idle => simp [gatherRunStep, task, idle] at starts
      | visiting before noRequest noAnswer task soFar isKeys =>
          rename_i rest
          cases rest with
          | nil => simp [gatherRunStep, gatherStep, task, soFar] at responds
          | cons tag rest => simp [gatherRunStep, gatherStep, task, soFar] at visits
      | responded before noRequest answer noTask idle items stored =>
          cases (received pid root).symm.trans answer
      | handled noRequest noAnswer noTask idle stored => rfl
  cases left with
  | zero => rfl
  | succ left =>
      have sum : ∑ pid, done pid = n - 1 := by
        rw [Finset.sum_congr rfl fun pid _ => handled pid, sum_others, Fintype.card_fin]
      have pops := stuck .pop
      cases token : (s.proc root).gathering with
      | zero => omega
      | succ tokens => simp [gatherRunStep, called, token] at pops

end Invariant

/-- In a quiescent state, a process calls `gather`.  When `gather` has returned, its
table holds the items which some process owns and no others, each with the value and
the owner of the owner's entry, and their number is the size of the table.  The other
processes are as before, no token is left, no callback was called and nothing of the
gathering is left to be done.  Until then some message can be handled, or a service
task or `gather` can go on. -/
theorem gather_exact [DecidableEq Tag] [DecidableEq Item] {tuner : Tuner n Tag} {root : Fin n}
    {s₀ s : GatherRun n Tag Item} (quiescent : Quiescent s₀)
    (reached : Reachable (gatherRunSystem tuner root s₀) s) :
    (s.left = some 0 →
      (∀ tag owner item, s.Holds root tag owner item ↔ s₀.Owned owner tag item) ∧
      s.size root = Set.ncard {tag | ∃ owner item, s₀.Owned owner tag item} ∧
      (∀ pid, pid ≠ root → s.proc pid = s₀.proc pid) ∧
      (∀ pid, (s.proc pid).gathering = 0) ∧
      s.base.coll.onPuts = s₀.base.coll.onPuts ∧
      s.base.coll.chan.Empty ∧ s.base.chan.Empty ∧ ∀ pid, s.base.tasks pid = []) ∧
    ∀ left, s.left = some (left + 1) → ∃ action, gatherRunStep tuner root s action ≠ none := by
  have inv := gatherInv_of_reached quiescent reached
  refine ⟨fun returned => ?_, fun left waits => ?_⟩
  · have progress := inv.progress
    rw [returned] at progress
    obtain ⟨noToken, handled⟩ := progress.returned
    have stored : ∀ tag owner item, s₀.Owned owner tag item → (s.proc root).Stores tag := by
      intro tag owner item owned
      by_cases same : owner = root
      · subst same
        apply inv.kept
        intro absent
        cases absent.symm.trans owned.1
      · obtain ⟨-, -, -, inTable⟩ := (handled owner same).of_handled
        exact inTable tag item (mem_ownedItems.mpr ⟨quiescent.mem_keys owned, owned⟩)
    have holds : ∀ tag owner item, s.Holds root tag owner item ↔ s₀.Owned owner tag item := by
      intro tag owner item
      constructor
      · rintro ⟨isItem, isOwner⟩
        obtain ⟨other, ⟨-, isOther⟩, owned⟩ := inv.copies tag item isItem
        cases isOwner.symm.trans isOther
        exact owned
      · intro owned
        obtain ⟨found, isItem⟩ := Option.ne_none_iff_exists'.mp (stored tag owner item owned)
        obtain ⟨other, holds, ownedBy⟩ := inv.copies tag found isItem
        cases quiescent.oneOwner tag owner other item found owned ownedBy
        cases owned.1.symm.trans ownedBy.1
        exact holds
    have sameTags : {tag | (s.proc root).Stores tag} =
        {tag | ∃ owner item, s₀.Owned owner tag item} := by
      ext tag
      constructor
      · intro stores
        obtain ⟨item, isItem⟩ := Option.ne_none_iff_exists'.mp stores
        obtain ⟨owner, -, owned⟩ := inv.copies tag item isItem
        exact ⟨owner, item, owned⟩
      · rintro ⟨owner, item, owned⟩
        exact stored tag owner item owned
    refine ⟨holds, inv.size.trans (congrArg Set.ncard sameTags),
      fun pid other => (inv.others pid other).1, ?_, inv.onPuts, inv.collChan, ?_, ?_⟩
    · intro pid
      by_cases same : pid = root
      · rw [same, noToken]
      · rw [(inv.others pid same).1, quiescent.gathering]
    · intro i j
      by_cases fromRoot : i = root <;> by_cases toRoot : j = root
      · exact inv.between i j (by simp [fromRoot, toRoot])
      · exact fromRoot ▸ (handled j toRoot).of_handled.1
      · exact toRoot ▸ (handled i fromRoot).of_handled.2.1
      · exact inv.between i j (by simp [fromRoot, toRoot])
    · intro pid
      by_cases same : pid = root
      · rw [same, inv.atRoot.1]
      · exact (handled pid same).of_handled.2.2.1
  · by_contra stuck
    simp only [not_exists, not_not] at stuck
    exact absurd (inv.finished waits stuck) (Nat.succ_ne_zero left)

def ownEntry (pid : Fin 2) : Entry 2 Nat where
  item := some (pid + 40)
  suspendGroup := 0
  subscribers := []
  owner := some pid
  getCount := noGetCount
  isInt := by decide

/-- Each of two processes owns an item: process `p` item `p + 7`. -/
def oneEach : GatherRun 2 Nat Nat where
  base :=
    { coll :=
        { start 2 Nat Nat with
          proc := fun pid =>
            { (start 2 Nat Nat).proc pid with
              table := fun tag => if tag = pid + 7 then some (ownEntry pid) else none } }
      chan := fun _ _ => []
      tasks := fun _ => [] }
  keys pid := [pid + 7]
  size _ := 1
  unvisited _ := none
  left := none

theorem oneEach_entry (pid : Fin 2) (tag : Nat) : (oneEach.proc pid).entry tag =
    if tag = pid + 7 then ownEntry pid else .placeholder := by
  by_cases isTag : tag = pid + 7 <;> simp [oneEach, GatherRun.proc, Process.entry, isTag]

theorem oneEach_owned {pid : Fin 2} {tag item : Nat}
    (isItem : ((oneEach.proc pid).entry tag).item = some item) :
    tag = pid + 7 ∧ oneEach.Owned pid tag item := by
  have found := oneEach_entry pid tag
  by_cases isTag : tag = pid + 7
  · rw [if_pos isTag] at found
    exact ⟨isTag, isItem, by rw [found]; rfl⟩
  · rw [found, if_neg isTag] at isItem
    cases isItem

theorem quiescent_oneEach : Quiescent oneEach where
  collChan _ _ := rfl
  chan _ _ := rfl
  tasks _ := rfl
  unvisited _ := rfl
  left := rfl
  gathering _ := rfl
  keys pid tag := by simp [oneEach, GatherRun.proc]
  size pid := by
    have stored : {tag | (oneEach.proc pid).Stores tag} = {(pid : Nat) + 7} := by
      ext tag
      by_cases isTag : tag = pid + 7 <;>
        simp [Process.Stores, oneEach_entry, isTag, ownEntry, Entry.placeholder]
    rw [stored, Set.ncard_singleton]
    rfl
  copies pid tag item isItem := by
    obtain ⟨-, owned⟩ := oneEach_owned isItem
    exact ⟨pid, owned, owned⟩
  oneOwner tag p q item other owned ownedToo := by
    obtain ⟨isP, -⟩ := oneEach_owned owned.1
    obtain ⟨isQ, -⟩ := oneEach_owned ownedToo.1
    exact Fin.ext (Nat.add_right_cancel (isP.symm.trans isQ))

/-- Items stay on the process which puts them. -/
def staysHere : Tuner 2 Nat where
  consumedOn _ := .single .here
  producedOn _ _ := .unknown
  getCount _ := noGetCount
  getCount_le _ := noGetCount_le
  enableGC := 1
  enableGC_pos := Nat.one_pos

def gatherBoth : List (GatherRunAction 2) :=
  [.gather, .receive 0 1, .forAll 1, .visit 1, .respond 1, .receive 1 0, .receive 1 0, .pop]

theorem gather_exact_gatherBoth :
    ∃ s : GatherRun 2 Nat Nat,
      (gatherRunSystem staysHere 0 oneEach).run (fun _ _ => True) oneEach gatherBoth = some s ∧
      s.Holds 0 8 1 41 ∧ s.Holds 0 7 0 40 ∧
      s.size 0 = Set.ncard {tag | ∃ owner item, oneEach.Owned owner tag item} := by
  have reached : Reachable (gatherRunSystem staysHere 0 oneEach) _ :=
    Reached.run (.initial rfl) gatherBoth rfl
  obtain ⟨holds, size, -⟩ := (gather_exact quiescent_oneEach reached).1 rfl
  exact ⟨_, rfl, (holds 8 1 41).mpr ⟨rfl, rfl⟩, (holds 7 0 40).mpr ⟨rfl, rfl⟩, size⟩

end CnC.Item
