import CnC.Tag.Collection

/-!
# Insertions into the tag table

`hash_tag_table::insert` reads the bits of a tag for its result, and `|=` reads them again
before it writes them.  Nothing protects these accesses, so other puts and messages may come in
between.  A run in which no insertion is interrupted is one with atomic insertions.
-/

namespace CnC.Tag

open Network Transition

universe u

variable {n k m : Nat} {Tag : Type u}

/-- An insertion which has read its result `found`.  What `|=` has read is in `loaded`. -/
structure Insertion (Tag : Type u) where
  tag : Tag
  mask : BitVec 32
  found : BitVec 32
  loaded : Option (BitVec 32)
  deriving DecidableEq

structure Interleaved (n k m : Nat) (Tag : Type u) where
  state : State n k m Tag
  inserting : Fin n → List (Insertion Tag)

inductive Move (n k : Nat) (Tag : Type u) where
  | put (pid : Fin n) (tag : Tag)
  | receive (source target : Fin n) (message : Msg k Tag)
  | load (pid : Fin n) (insertion : Insertion Tag)
  | store (pid : Fin n) (insertion : Insertion Tag) (bits : BitVec 32)
  | visit (pid : Fin n) (call : PutCall k Tag) (next : Fin n)
  | finish (pid : Fin n) (call : PutCall k Tag)

section Steps

variable [DecidableEq Tag]

/-- The entry of the map, which is made if there is none. -/
def Process.enter (process : Process k Tag) (tag : Tag) : Process k Tag :=
  { process with table := Function.update process.table tag (some (process.table.bits tag)) }

/-- The write of `|=`, and the rest of the start of `Put`. -/
def Process.store (process : Process k Tag) (insertion : Insertion Tag) (bits : BitVec 32) :
    Process k Tag :=
  let table := Function.update process.table insertion.tag (some (bits ||| insertion.mask))
  if insertion.found ≠ insertion.mask &&& allMask k ∨ allMask k = 0 then
    { process with table, calls :=
        ⟨insertion.tag, insertion.mask, insertion.found, List.finRange k⟩ :: process.calls }
  else { process with table }

/-- The start of an insertion, up to the read for its result. -/
def Interleaved.insert (s : Interleaved n k m Tag) (pid : Fin n) (tag : Tag)
    (mask : BitVec 32) : Interleaved n k m Tag where
  state := s.state.setProc pid ((s.state.proc pid).enter tag)
  inserting := Function.update s.inserting pid
    (⟨tag, mask, (s.state.proc pid).table.bits tag &&& mask, none⟩ :: s.inserting pid)

def move (tuner : Tuner n k Tag) (s : Interleaved n k m Tag) :
    Move n k Tag → Option (Interleaved n k m Tag)
  | .put pid tag =>
      let started := s.insert pid tag userMask
      some { started with state := { started.state with puts := (pid, tag) :: s.state.puts } }
  | .receive source target message =>
      if (s.state.chan source target).contains message then
        let started := s.insert target message.tag (stepId message.coll)
        some { started with state := { started.state with
          chan := s.state.chan.setQueue source target
            ((s.state.chan source target).erase message) } }
      else none
  | .load pid insertion =>
      if insertion ∈ s.inserting pid ∧ insertion.loaded = none then
        let bits := (s.state.proc pid).table.bits insertion.tag
        some { s with
          inserting := Function.update s.inserting pid
            ({ insertion with loaded := some bits } :: (s.inserting pid).erase insertion) }
      else none
  | .store pid insertion bits =>
      if insertion ∈ s.inserting pid ∧ insertion.loaded = some bits then
        some ⟨s.state.setProc pid ((s.state.proc pid).store insertion bits),
          Function.update s.inserting pid ((s.inserting pid).erase insertion)⟩
      else none
  | .visit pid call next =>
      (step tuner s.state (.visit pid call next)).map fun state => { s with state }
  | .finish pid call =>
      (step tuner s.state (.finish pid call)).map fun state => { s with state }

/-- All puts and messages, with their insertions interleaved. -/
def interleaved (tuner : Tuner n k Tag) : System (Interleaved n k m Tag) (Move n k Tag) where
  Initial s := s = ⟨start n k m Tag, fun _ => []⟩
  step := move tuner

variable {tuner : Tuner n k Tag} {s : State n k m Tag}

theorem Process.bits_enter (process : Process k Tag) (tag other : Tag) :
    (process.enter tag).table.bits other = process.table.bits other := by
  by_cases same : other = tag
  · subst same
    simp [enter, TagTable.bits]
  · simp [enter, TagTable.bits, same]

theorem Process.bits_store (process : Process k Tag) (insertion : Insertion Tag)
    (bits : BitVec 32) (other : Tag) :
    (process.store insertion bits).table.bits other =
      if other = insertion.tag then bits ||| insertion.mask else process.table.bits other := by
  unfold Process.store
  by_cases same : other = insertion.tag
  · subst same
    dsimp only
    split <;> simp [TagTable.bits]
  · dsimp only
    split <;> simp [TagTable.bits, same]

theorem Process.store_enter (process : Process k Tag) (tag : Tag) (mask : BitVec 32)
    (loaded : Option (BitVec 32)) :
    (process.enter tag).store ⟨tag, mask, process.table.bits tag &&& mask, loaded⟩
        ((process.enter tag).table.bits tag) = process.put tag mask := by
  rw [Process.bits_enter]
  simp only [Process.store, Process.enter, Process.put, TagTable.insert, Function.update_idem]
  rfl

theorem insertion_reachable {pid : Fin n} {tag : Tag} {mask found : BitVec 32}
    (reached : Reachable (interleaved tuner)
      ⟨s, Function.update (fun _ => []) pid [⟨tag, mask, found, none⟩]⟩) :
    Reachable (interleaved tuner)
      ⟨s.setProc pid ((s.proc pid).store
        ⟨tag, mask, found, some ((s.proc pid).table.bits tag)⟩ ((s.proc pid).table.bits tag)),
        fun _ => []⟩ := by
  have loaded : (interleaved tuner).step
      ⟨s, Function.update (fun _ => []) pid [⟨tag, mask, found, none⟩]⟩
      (.load pid ⟨tag, mask, found, none⟩) =
        some ⟨s, Function.update (fun _ => []) pid
          [⟨tag, mask, found, some ((s.proc pid).table.bits tag)⟩]⟩ := by
    simp [interleaved, move]
  have stored : (interleaved tuner).step
      ⟨s, Function.update (fun _ => []) pid
        [⟨tag, mask, found, some ((s.proc pid).table.bits tag)⟩]⟩
      (.store pid ⟨tag, mask, found, some ((s.proc pid).table.bits tag)⟩
        ((s.proc pid).table.bits tag)) =
        some ⟨s.setProc pid ((s.proc pid).store
          ⟨tag, mask, found, some ((s.proc pid).table.bits tag)⟩
          ((s.proc pid).table.bits tag)), fun _ => []⟩ := by
    simp [interleaved, move]
  exact (reached.step trivial loaded).step trivial stored

/-- A run with atomic insertions is a run in which no insertion is interrupted. -/
theorem interleaved_of_atomic (reached : Reachable (system tuner) s) :
    Reachable (interleaved tuner) ⟨s, fun _ => []⟩ := by
  induction reached with
  | initial start =>
      obtain rfl := start
      exact .initial rfl
  | @step before action next _ _ stepped inductionHypothesis =>
      cases action with
      | put pid tag =>
          cases stepped
          have started : (CnC.Tag.interleaved tuner).step ⟨before, fun _ => []⟩ (.put pid tag) =
              some _ := rfl
          have inserted := insertion_reachable (inductionHypothesis.step trivial started)
          simpa [Interleaved.insert, State.setProc, Process.store_enter] using inserted
      | visit pid call chosen =>
          have moved : (CnC.Tag.interleaved tuner).step ⟨before, fun _ => []⟩
              (.visit pid call chosen) = some ⟨next, fun _ => []⟩ :=
            Option.map_eq_some_iff.mpr ⟨next, stepped, rfl⟩
          exact inductionHypothesis.step trivial moved
      | finish pid call =>
          have moved : (CnC.Tag.interleaved tuner).step ⟨before, fun _ => []⟩
              (.finish pid call) = some ⟨next, fun _ => []⟩ :=
            Option.map_eq_some_iff.mpr ⟨next, stepped, rfl⟩
          exact inductionHypothesis.step trivial moved
      | receive source target message =>
          simp only [system, CnC.Tag.step, Option.ite_none_right_eq_some, Option.some.injEq]
            at stepped
          obtain ⟨inFlight, rfl⟩ := stepped
          have started : (CnC.Tag.interleaved tuner).step ⟨before, fun _ => []⟩
              (.receive source target message) = some _ :=
            if_pos (List.contains_iff_mem.mpr inFlight)
          have inserted := insertion_reachable (inductionHypothesis.step trivial started)
          simpa [Interleaved.insert, State.setProc, Process.store_enter] using inserted

end Steps

/-- No put is going on and no message is on its way. -/
def Interleaved.Quiescent (s : Interleaved n k m Tag) : Prop :=
  CnC.Tag.Quiescent s.state ∧ ∀ pid, s.inserting pid = []

instance [DecidableEq Tag] (s : Interleaved n k m Tag) : Decidable s.Quiescent :=
  inferInstanceAs (Decidable (_ ∧ _))

end CnC.Tag
