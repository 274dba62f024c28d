import CnC.Item.Interchange

/-!
# Resetting an item collection

`do_reset` clears the table of the collection.  For the hash table nothing is
left.  The vector only clears the items; what was recorded for a tag stays and is
found by the next operation on that tag.
-/

namespace CnC.Item

universe u

variable {sz n : Nat} {Item : Type u}

section Run

variable {Table : Type u} (type : TableType Table sz n Item)

/-- `item_collection_base::do_reset`.  No operation of the collection is going on,
so there is no accessor. -/
def doReset (s : Locked Table sz) : Locked Table sz where
  table := type.clear s.table
  held _ := false

/-- The later operations return what they return on a new collection, and leave
the same table. -/
def Restored (before later : List (Op sz n Item)) : Prop :=
  performAll type (doReset type (performAll type (fresh type) before).1) later =
    performAll type (fresh type) later

end Run

def Unnoticed (left : Fin sz → Entry n Item) : Op sz n Item → Prop
  | .putItem tag _ getcount _ => (left tag).Overwritten getcount
  | .getItemOrAccessor tag => left tag = .placeholder
  | .getItemAndAccessor tag => left tag = .placeholder
  | .getAccessor tag => (left tag).hasContent = false
  | _ => True

def forget (left : Fin sz → Entry n Item) : Op sz n Item → Fin sz → Entry n Item
  | .putItem tag _ _ _ => Function.update left tag .placeholder
  | _ => left

/-- No operation of a sequence notices what is left, and nothing of it remains at
the end. -/
def Forgotten : Locked (VecItemTable sz n Item) sz → (Fin sz → Entry n Item) →
    List (Op sz n Item) → Prop
  | _, left, [] => ∀ tag, left tag = .placeholder
  | s, left, op :: ops =>
      match perform (vecItemTable sz n Item) s op with
      | none => ∀ tag, left tag = .placeholder
      | some (next, _) => Unnoticed left op ∧ Forgotten next (forget left op) ops

def leftByReset (s : Locked (VecItemTable sz n Item) sz) (tag : Fin sz) : Entry n Item :=
  { s.table.map tag with item := none }

/-- A table which was reset, compared with a new one after the same operations. -/
structure Stale (clean dirty : Locked (VecItemTable sz n Item) sz)
    (left : Fin sz → Entry n Item) : Prop where
  size : dirty.table.size = clean.table.size
  held : dirty.held = clean.held
  gone : ∀ tag, (left tag).item = none
  same : ∀ tag, left tag = .placeholder → dirty.table.map tag = clean.table.map tag
  stale : ∀ tag, left tag ≠ .placeholder → dirty.table.map tag = left tag ∧
    clean.table.map tag = .placeholder ∧ clean.held tag = false

section Stale

variable {clean dirty : Locked (VecItemTable sz n Item) sz} {left : Fin sz → Entry n Item}

theorem Stale.eq_iff (stale : Stale clean dirty left) :
    dirty = clean ↔ ∀ tag, left tag = .placeholder := by
  constructor
  · intro same tag
    by_contra remains
    obtain ⟨dirtyEntry, cleanEntry, -⟩ := stale.stale tag remains
    rw [same, cleanEntry] at dirtyEntry
    exact remains dirtyEntry.symm
  · intro forgotten
    have sameMap : dirty.table.map = clean.table.map :=
      funext fun tag => stale.same tag (forgotten tag)
    have sameSize := stale.size
    have sameHeld := stale.held
    cases dirty with
    | mk dirtyTable dirtyHeld =>
        cases dirtyTable
        cases sameMap
        cases sameSize
        cases sameHeld
        rfl

theorem Stale.stored (stale : Stale clean dirty left) (tag : Fin sz) (entry : Entry n Item)
    (size : Nat) {held : Fin sz → Bool}
    (heldBefore : ∀ other, other ≠ tag → held other = clean.held other) :
    Stale ⟨{ clean.table.setEntry tag entry with size := size }, held⟩
      ⟨{ dirty.table.setEntry tag entry with size := size }, held⟩
      (Function.update left tag .placeholder) where
  size := rfl
  held := rfl
  gone other := by
    by_cases same : other = tag
    · subst same
      simp [Entry.placeholder]
    · simpa [same] using stale.gone other
  same other := by
    by_cases same : other = tag
    · subst same
      simp [VecItemTable.setEntry]
    · simpa [VecItemTable.setEntry, same] using stale.same other
  stale other := by
    by_cases same : other = tag
    · subst same
      simp
    · simpa [VecItemTable.setEntry, same, heldBefore other same] using stale.stale other

theorem Stale.replaced (stale : Stale clean dirty left) {tag : Fin sz}
    (nothing : left tag = .placeholder) (entry : Entry n Item) (size : Nat) {held : Fin sz → Bool}
    (heldBefore : ∀ other, other ≠ tag → held other = clean.held other) :
    Stale ⟨{ clean.table.setEntry tag entry with size := size }, held⟩
      ⟨{ dirty.table.setEntry tag entry with size := size }, held⟩ left := by
  have stored := stale.stored tag entry size heldBefore
  rwa [← nothing, Function.update_eq_self] at stored

theorem Stale.entry_eq_iff (stale : Stale clean dirty left) (tag : Fin sz) :
    dirty.table.map tag = clean.table.map tag ↔ left tag = .placeholder := by
  constructor
  · intro same
    by_contra remains
    obtain ⟨dirtyEntry, cleanEntry, -⟩ := stale.stale tag remains
    exact remains (dirtyEntry.symm.trans (same.trans cleanEntry))
  · exact stale.same tag

theorem Stale.locked (stale : Stale clean dirty left) {tag : Fin sz}
    (isHeld : clean.held tag = true) : left tag = .placeholder := by
  by_contra remains
  rw [(stale.stale tag remains).2.2] at isHeld
  exact Bool.false_ne_true isHeld

/-- Both tables are asked for the same operation.  The results are the same if it
does not notice what is left, and only then. -/
def InPace (clean dirty : Locked (VecItemTable sz n Item) sz) (left : Fin sz → Entry n Item)
    (op : Op sz n Item) : Prop :=
  (perform (vecItemTable sz n Item) clean op = none ∧
    perform (vecItemTable sz n Item) dirty op = none) ∨
  ∃ next result dirtyNext dirtyResult,
    perform (vecItemTable sz n Item) clean op = some (next, result) ∧
    perform (vecItemTable sz n Item) dirty op = some (dirtyNext, dirtyResult) ∧
    (dirtyResult = result ↔ Unnoticed left op) ∧
    (Unnoticed left op → Stale next dirtyNext (forget left op))

theorem Stale.inPace_putItem (stale : Stale clean dirty left) (tag : Fin sz) (item : Item)
    (getcount : Int) (owner : Fin n) :
    InPace clean dirty left (.putItem tag item getcount owner) := by
  unfold InPace
  have samePut : putItem (some (dirty.table.map tag)) item getcount owner =
      putItem (some (clean.table.map tag)) item getcount owner ↔
        (left tag).Overwritten getcount := by
    by_cases remains : left tag = .placeholder
    · simp [stale.same tag remains, remains, Entry.Overwritten, Entry.placeholder, Entry.recorded]
    · obtain ⟨dirtyEntry, cleanEntry, -⟩ := stale.stale tag remains
      rw [dirtyEntry, cleanEntry]
      exact putItem_eq_iff (stale.gone tag) item getcount owner
  have sameFlag : (putItem (some (dirty.table.map tag)) item getcount owner).2 =
      (putItem (some (clean.table.map tag)) item getcount owner).2 := by
    by_cases remains : left tag = .placeholder
    · rw [stale.same tag remains]
    · obtain ⟨dirtyEntry, cleanEntry, -⟩ := stale.stale tag remains
      rw [dirtyEntry, cleanEntry, putItem_inserted (stale.gone tag), putItem_inserted rfl]
  cases isHeld : clean.held tag with
  | true => exact .inl ⟨by simp [perform, isHeld], by simp [perform, stale.held, isHeld]⟩
  | false =>
      refine .inr ⟨_, _, _, _, by simp only [perform, isHeld]; rfl,
        by simp only [perform, stale.held, isHeld]; rfl, ?_, ?_⟩
      · rw [Unnoticed, ← samePut, Prod.ext_iff, and_iff_left sameFlag]
        simp [vecItemTable, VecItemTable.putItem, VecItemTable.setEntry, sameFlag]
      · intro unnoticed
        simp only [vecItemTable, VecItemTable.putItem, samePut.2 unnoticed, stale.size, forget]
        exact stale.stored tag _ _ fun other different =>
          Function.update_of_ne different true clean.held

theorem Stale.access (stale : Stale clean dirty left) {tag : Fin sz}
    (nothing : left tag = .placeholder) (isHeld : Bool) :
    Stale ⟨clean.table, Function.update clean.held tag isHeld⟩
      ⟨dirty.table, Function.update dirty.held tag isHeld⟩ left where
  size := stale.size
  held := by rw [stale.held]
  gone := stale.gone
  same := stale.same
  stale other remains := by
    have different : other ≠ tag := fun same => remains (same ▸ nothing)
    simpa [different] using stale.stale other remains

theorem Stale.inPace_getItemAndAccessor (stale : Stale clean dirty left) (tag : Fin sz) :
    InPace clean dirty left (.getItemAndAccessor tag) := by
  unfold InPace
  cases isHeld : clean.held tag with
  | true => exact .inl ⟨by simp [perform, isHeld], by simp [perform, stale.held, isHeld]⟩
  | false =>
      refine .inr ⟨_, _, _, _, by simp only [perform, isHeld]; rfl,
        by simp only [perform, stale.held, isHeld]; rfl, ?_, ?_⟩
      · simp only [vecItemTable, Unnoticed, Result.got.injEq, Option.some.injEq,
          ← stale.entry_eq_iff]
        exact ⟨And.right, fun same => ⟨by rw [same], same⟩⟩
      · intro nothing
        have accessed := stale.access nothing true
        rw [stale.held] at accessed
        exact accessed

theorem Stale.inPace_getItemOrAccessor (stale : Stale clean dirty left) (tag : Fin sz) :
    InPace clean dirty left (.getItemOrAccessor tag) := by
  unfold InPace
  cases isHeld : clean.held tag with
  | true => exact .inl ⟨by simp [perform, isHeld], by simp [perform, stale.held, isHeld]⟩
  | false =>
      right
      have dirtyHeld : dirty.held tag = false := by rw [stale.held, isHeld]
      by_cases nothing : left tag = .placeholder
      · have sameEntry := stale.same tag nothing
        cases item : (clean.table.map tag).itemAndGc with
        | some itemAndGc =>
            refine ⟨clean, .got (some itemAndGc) none, dirty, .got (some itemAndGc) none, ?_, ?_, ?_,
              fun _ => stale⟩
            · simp [perform, isHeld, vecItemTable, item]
            · simp [perform, dirtyHeld, vecItemTable, sameEntry, item]
            · simp [Unnoticed, nothing]
        | none =>
            refine ⟨_, .got none (some (clean.table.map tag)), _,
              .got none (some (clean.table.map tag)), ?_, ?_, ?_, fun _ => stale.access nothing true⟩
            · simp [perform, isHeld, vecItemTable, item]
            · simp [perform, dirtyHeld, vecItemTable, sameEntry, item]
            · simp [Unnoticed, nothing]
      · obtain ⟨dirtyEntry, cleanEntry, -⟩ := stale.stale tag nothing
        have noItem := stale.gone tag
        refine ⟨⟨clean.table, Function.update clean.held tag true⟩, .got none (some .placeholder),
          ⟨dirty.table, Function.update dirty.held tag true⟩, .got none (some (left tag)),
          ?_, ?_, ?_, ?_⟩
        · simp [perform, isHeld, vecItemTable, cleanEntry, Entry.itemAndGc, Entry.placeholder]
        · simp [perform, dirtyHeld, vecItemTable, dirtyEntry, Entry.itemAndGc, noItem]
        · simp [Unnoticed]
        · exact fun unnoticed => absurd unnoticed nothing

theorem Stale.inPace_getAccessor (stale : Stale clean dirty left) (tag : Fin sz) :
    InPace clean dirty left (.getAccessor tag) := by
  unfold InPace
  cases isHeld : clean.held tag with
  | true => exact .inl ⟨by simp [perform, isHeld], by simp [perform, stale.held, isHeld]⟩
  | false =>
      right
      have dirtyHeld : dirty.held tag = false := by rw [stale.held, isHeld]
      by_cases nothing : left tag = .placeholder
      · have sameEntry := stale.same tag nothing
        have noContent : Unnoticed left (.getAccessor tag) := by
          simp [Unnoticed, nothing, Entry.hasContent, Entry.placeholder]
        cases found : (clean.table.map tag).item.isSome || (clean.table.map tag).hasContent with
        | true =>
            refine ⟨_, .accessor (some (clean.table.map tag)), _,
              .accessor (some (clean.table.map tag)), ?_, ?_, by simp [noContent],
              fun _ => stale.access nothing true⟩
            · simp only [perform, isHeld, vecItemTable, found]
              rfl
            · simp only [perform, dirtyHeld, vecItemTable, sameEntry, found]
              rfl
        | false =>
            refine ⟨clean, .accessor none, dirty, .accessor none, ?_, ?_, by simp [noContent],
              fun _ => stale⟩
            · simp only [perform, isHeld, vecItemTable, found]
              rfl
            · simp only [perform, dirtyHeld, vecItemTable, sameEntry, found]
              rfl
      · obtain ⟨dirtyEntry, cleanEntry, -⟩ := stale.stale tag nothing
        have noItem := stale.gone tag
        have cleanStep : perform (vecItemTable sz n Item) clean (.getAccessor tag) =
            some (clean, .accessor none) := by
          simp [perform, isHeld, vecItemTable, cleanEntry, Entry.hasContent, Entry.placeholder]
        cases content : (left tag).hasContent with
        | false =>
            refine ⟨clean, .accessor none, dirty, .accessor none, cleanStep, ?_, ?_, fun _ => stale⟩
            · simp [perform, dirtyHeld, vecItemTable, dirtyEntry, noItem, content]
            · simp [Unnoticed, content]
        | true =>
            refine ⟨clean, .accessor none, ⟨dirty.table, Function.update dirty.held tag true⟩,
              .accessor (some (left tag)), cleanStep, ?_, ?_, ?_⟩
            · simp [perform, dirtyHeld, vecItemTable, dirtyEntry, content]
            · simp [Unnoticed, content]
            · intro unnoticed
              simp [Unnoticed, content] at unnoticed

theorem Stale.inPace_change (stale : Stale clean dirty left) (tag : Fin sz) (change : Change n) :
    InPace clean dirty left (.change tag change) := by
  unfold InPace
  cases isHeld : clean.held tag with
  | false => exact .inl ⟨by simp [perform, isHeld], by simp [perform, stale.held, isHeld]⟩
  | true =>
      have nothing := stale.locked isHeld
      have sameEntry := stale.same tag nothing
      refine .inr ⟨_, _, _, _, by simp only [perform, isHeld]; rfl,
        by simp only [perform, stale.held, isHeld]; rfl, ?_, fun _ => ?_⟩
      · simp [vecItemTable, Unnoticed, sameEntry, VecItemTable.setEntry]
      · have replaced := stale.replaced nothing (change.apply (clean.table.map tag)).1
          clean.table.size (fun _ _ => rfl)
        have dirtySize : ∀ entry, { dirty.table.setEntry tag entry with size := clean.table.size } =
            dirty.table.setEntry tag entry := by
          intro entry
          rw [← stale.size]
          rfl
        rw [dirtySize] at replaced
        simp only [vecItemTable, sameEntry, forget]
        exact replaced

theorem Stale.inPace_erase (stale : Stale clean dirty left) (tag : Fin sz) :
    InPace clean dirty left (.erase tag) := by
  unfold InPace
  cases isHeld : clean.held tag with
  | false => exact .inl ⟨by simp [perform, isHeld], by simp [perform, stale.held, isHeld]⟩
  | true =>
      have nothing := stale.locked isHeld
      have sameEntry := stale.same tag nothing
      refine .inr ⟨_, _, _, _, by simp only [perform, isHeld]; rfl,
        by simp only [perform, stale.held, isHeld]; rfl, ?_, fun _ => ?_⟩
      · simp [vecItemTable, VecItemTable.erase, Unnoticed, sameEntry]
      · simp only [vecItemTable, VecItemTable.erase, sameEntry, forget, stale.size]
        exact stale.replaced nothing _ _ fun other different =>
          Function.update_of_ne different false clean.held

theorem Stale.inPace_release (stale : Stale clean dirty left) (tag : Fin sz) :
    InPace clean dirty left (.release tag) := by
  unfold InPace
  cases isHeld : clean.held tag with
  | false => exact .inl ⟨by simp [perform, isHeld], by simp [perform, stale.held, isHeld]⟩
  | true =>
      refine .inr ⟨_, _, _, _, by simp only [perform, isHeld]; rfl,
        by simp only [perform, stale.held, isHeld]; rfl, ?_, fun _ => ?_⟩
      · simp [Unnoticed]
      · have released := stale.access (stale.locked isHeld) false
        rw [stale.held] at released
        exact released

theorem Stale.inPace (stale : Stale clean dirty left) (op : Op sz n Item) :
    InPace clean dirty left op := by
  cases op with
  | putItem tag item getcount owner => exact stale.inPace_putItem tag item getcount owner
  | getItemOrAccessor tag => exact stale.inPace_getItemOrAccessor tag
  | getItemAndAccessor tag => exact stale.inPace_getItemAndAccessor tag
  | getAccessor tag => exact stale.inPace_getAccessor tag
  | change tag change => exact stale.inPace_change tag change
  | erase tag => exact stale.inPace_erase tag
  | release tag => exact stale.inPace_release tag
  | size =>
      refine .inr ⟨_, _, _, _, rfl, rfl, ?_, fun _ => stale⟩
      simp [Unnoticed, vecItemTable, stale.size]
  | empty =>
      refine .inr ⟨_, _, _, _, rfl, rfl, ?_, fun _ => stale⟩
      simp [Unnoticed, vecItemTable, stale.size]

/-- The operations do the same to both tables exactly if they do not notice what
is left, and replace it. -/
theorem Stale.performAll_eq_iff (stale : Stale clean dirty left) (ops : List (Op sz n Item)) :
    performAll (vecItemTable sz n Item) dirty ops = performAll (vecItemTable sz n Item) clean ops ↔
      Forgotten clean left ops := by
  induction ops generalizing clean dirty left with
  | nil => simp [performAll, Forgotten, stale.eq_iff]
  | cons op ops inductionHypothesis =>
      rcases stale.inPace op with ⟨cleanWaits, dirtyWaits⟩ |
          ⟨next, result, dirtyNext, dirtyResult, cleanStep, dirtyStep, sameResult, nextStale⟩
      · simp [performAll, Forgotten, cleanWaits, dirtyWaits, stale.eq_iff]
      · simp only [performAll, Forgotten, cleanStep, dirtyStep, Prod.mk.injEq, List.cons.injEq,
          sameResult]
        rw [and_left_comm]
        refine and_congr_right fun unnoticed => ?_
        rw [← Prod.ext_iff]
        exact inductionHypothesis (nextStale unnoticed)

end Stale

theorem stale_doReset (s : Locked (VecItemTable sz n Item) sz) :
    Stale (fresh (vecItemTable sz n Item)) (doReset (vecItemTable sz n Item) s)
      (leftByReset s) where
  size := rfl
  held := rfl
  gone _ := rfl
  same _ nothing := nothing
  stale _ _ := ⟨rfl, rfl, rfl⟩

/-- A reset of a hash table restores the initial state.  After the reset of a
vector the later operations have to forget what it has left. -/
theorem reset_restores (before later : List (Op sz n Item)) :
    Restored (hashItemTable sz n Item) before later ∧
    (Restored (vecItemTable sz n Item) before later ↔
      Forgotten (fresh (vecItemTable sz n Item))
        (leftByReset
          (performAll (vecItemTable sz n Item) (fresh (vecItemTable sz n Item)) before).1) later) :=
  ⟨rfl, (stale_doReset _).performAll_eq_iff later⟩

/-- An item with a get-count of 2 is read once before the reset, and put again with
the same get-count: it now has a get-count of 3. -/
theorem getcount_after_reset :
    ¬ ∀ before later : List (Op 1 1 Nat),
      Restored (hashItemTable 1 1 Nat) before later ∧
        Restored (vecItemTable 1 1 Nat) before later := by
  intro restored
  have same := congrArg Prod.snd (restored
    [.putItem 0 7 2 0, .release 0, .getAccessor 0, .change 0 (.setOrIncrementGetCount (-1)),
      .release 0]
    [.putItem 0 8 2 0]).2
  revert same
  decide

end CnC.Item
