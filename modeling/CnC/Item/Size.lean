import CnC.Item.Interchange
import CnC.Library.Transition
import Mathlib.Data.List.AList

/-!
# The size of a table

Both tables count their items in a member of their own.  The vector is empty if this counter is
zero, the hash table if its map has no entries, and a map has entries without an item.

The hash table is taken for tags of any type, and `clear` is one of the operations.
-/

namespace CnC.Item

open Transition

universe u v w

variable {sz n : Nat} {Item : Type u} {Tag : Type v} {Table : Type w}

/-- `TableType` for any tags.  The values which `change` returns do not matter here. -/
structure Interface (Table : Type w) (Tag : Type v) (n : Nat) (Item : Type u) where
  create : Table
  putItem : Table → Tag → Item → Int → Fin n → Table × Bool
  getItem : Table → Tag → Table × Option (Item × Bool)
  getAccessor : Table → Tag → Bool
  change : Table → Tag → Change n → Table
  erase : Table → Tag → Table × Option Item
  size : Table → Nat
  empty : Table → Bool
  clear : Table → Table

def TableType.interface {Table : Type u} (type : TableType Table sz n Item) :
    Interface Table (Fin sz) n Item where
  create := type.create
  putItem := type.putItem
  getItem := type.getItem
  getAccessor := type.getAccessor
  change table tag change := (type.change table tag change).1
  erase := type.erase
  size := type.size
  empty := type.empty
  clear := type.clear

/-- `hash_item_table`: a map with the entries, and the counter. -/
structure HashMapTable (Tag : Type v) (n : Nat) (Item : Type u) where
  map : AList fun _ : Tag => Entry n Item
  size : Nat

namespace HashMapTable

variable [DecidableEq Tag]

def entry (table : HashMapTable Tag n Item) (tag : Tag) : Entry n Item :=
  (table.map.lookup tag).getD .placeholder

def setEntry (table : HashMapTable Tag n Item) (tag : Tag) (entry : Entry n Item) :
    HashMapTable Tag n Item :=
  { table with map := table.map.insert tag entry }

def putItem (table : HashMapTable Tag n Item) (tag : Tag) (item : Item) (getcount : Int)
    (owner : Fin n) : HashMapTable Tag n Item × Bool :=
  let (entry, inserted) := CnC.Item.putItem (table.map.lookup tag) item getcount owner
  ({ table.setEntry tag entry with
    size := if inserted then table.size + 1 else table.size }, inserted)

def erase (table : HashMapTable Tag n Item) (tag : Tag) :
    HashMapTable Tag n Item × Option Item :=
  ({ map := table.map.erase tag,
     size := if (table.entry tag).item.isSome then table.size - 1 else table.size },
    (table.entry tag).item)

end HashMapTable

def hashMapTable (Tag : Type v) [DecidableEq Tag] (n : Nat) (Item : Type u) :
    Interface (HashMapTable Tag n Item) Tag n Item where
  create := { map := ∅, size := 0 }
  putItem := HashMapTable.putItem
  getItem table tag := (table.setEntry tag (table.entry tag), (table.entry tag).itemAndGc)
  getAccessor table tag := (table.map.lookup tag).isSome
  change table tag change := table.setEntry tag (change.apply (table.entry tag)).1
  erase := HashMapTable.erase
  size := HashMapTable.size
  empty table := table.map.entries.isEmpty
  clear _ := { map := ∅, size := 0 }

/-- The operations of a table but `size` and `empty`. -/
inductive Access (Tag : Type v) (n : Nat) (Item : Type u) where
  | putItem (tag : Tag) (item : Item) (getcount : Int) (owner : Fin n)
  | getItemOrAccessor (tag : Tag)
  | getItemAndAccessor (tag : Tag)
  | getAccessor (tag : Tag)
  | change (tag : Tag) (change : Change n)
  | erase (tag : Tag)
  | release (tag : Tag)
  | clear

/-- A table, the tags whose entries are locked by an accessor, and the operations so far, the last
one first. -/
structure Session (Table : Type w) (Tag : Type v) (n : Nat) (Item : Type u) where
  table : Table
  held : Finset Tag
  history : List (Access Tag n Item)

def stored [DecidableEq Tag] : List (Access Tag n Item) → Finset Tag
  | [] => ∅
  | .putItem tag _ _ _ :: earlier => insert tag (stored earlier)
  | .erase tag :: earlier => (stored earlier).erase tag
  | .clear :: _ => ∅
  | _ :: earlier => stored earlier

def entered [DecidableEq Tag] : List (Access Tag n Item) → Finset Tag
  | [] => ∅
  | .putItem tag _ _ _ :: earlier | .getItemOrAccessor tag :: earlier
  | .getItemAndAccessor tag :: earlier => insert tag (entered earlier)
  | .erase tag :: earlier => (entered earlier).erase tag
  | .clear :: _ => ∅
  | _ :: earlier => entered earlier

section Operations

variable [DecidableEq Tag] (type : Interface Table Tag n Item)

/-- The table and the locked tags after an operation.  An entry which is locked has to be released
before it can be locked again, and is changed or erased through its accessor only. -/
def access (table : Table) (held : Finset Tag) : Access Tag n Item → Option (Table × Finset Tag)
  | .putItem tag item getcount owner =>
      if tag ∈ held then none
      else some ((type.putItem table tag item getcount owner).1, insert tag held)
  | .getItemOrAccessor tag =>
      if tag ∈ held then none
      else if (type.getItem table tag).2.isSome then some (table, held)
      else some ((type.getItem table tag).1, insert tag held)
  | .getItemAndAccessor tag =>
      if tag ∈ held then none else some ((type.getItem table tag).1, insert tag held)
  | .getAccessor tag =>
      if tag ∈ held then none
      else if type.getAccessor table tag then some (table, insert tag held)
      else some (table, held)
  | .change tag change => if tag ∈ held then some (type.change table tag change, held) else none
  | .erase tag => if tag ∈ held then some ((type.erase table tag).1, held.erase tag) else none
  | .release tag => if tag ∈ held then some (table, held.erase tag) else none
  | .clear => if held = ∅ then some (type.clear table, ∅) else none

def sessions : System (Session Table Tag n Item) (Access Tag n Item) where
  Initial s := s = ⟨type.create, ∅, []⟩
  step s op := (access type s.table s.held op).map fun result =>
    ⟨result.1, result.2, op :: s.history⟩

end Operations

/-- The counter changes whenever a tag gets or loses its item. -/
structure Counts [DecidableEq Tag] (type : Interface Table Tag n Item)
    (hasItem : Table → Tag → Bool) : Prop where
  create : hasItem type.create = (fun _ => false) ∧ type.size type.create = 0
  putItem : ∀ table tag item getcount owner,
    hasItem (type.putItem table tag item getcount owner).1 =
        Function.update (hasItem table) tag true ∧
      type.size (type.putItem table tag item getcount owner).1 =
        if hasItem table tag then type.size table else type.size table + 1
  getItem : ∀ table tag, hasItem (type.getItem table tag).1 = hasItem table ∧
    type.size (type.getItem table tag).1 = type.size table
  change : ∀ table tag change, hasItem (type.change table tag change) = hasItem table ∧
    type.size (type.change table tag change) = type.size table
  erase : ∀ table tag,
    hasItem (type.erase table tag).1 = Function.update (hasItem table) tag false ∧
      type.size (type.erase table tag).1 =
        if hasItem table tag then type.size table - 1 else type.size table
  clear : ∀ table, hasItem (type.clear table) = (fun _ => false) ∧
    type.size (type.clear table) = 0

structure Holds (type : Interface Table Tag n Item) (hasItem : Table → Tag → Bool)
    (table : Table) (tags : Finset Tag) : Prop where
  mem : ∀ tag, hasItem table tag = true ↔ tag ∈ tags
  size : type.size table = tags.card

section Counter

variable [DecidableEq Tag] {type : Interface Table Tag n Item} {hasItem : Table → Tag → Bool}
  {table : Table} {tags : Finset Tag} {s : Session Table Tag n Item}

omit [DecidableEq Tag] in
theorem Holds.same {next : Table} (holds : Holds type hasItem table tags)
    (same : hasItem next = hasItem table ∧ type.size next = type.size table) :
    Holds type hasItem next tags :=
  ⟨fun tag => same.1 ▸ holds.mem tag, same.2.trans holds.size⟩

omit [DecidableEq Tag] in
theorem Holds.nothing {next : Table}
    (nothing : hasItem next = (fun _ => false) ∧ type.size next = 0) :
    Holds type hasItem next ∅ :=
  ⟨fun tag => by simp [nothing.1], nothing.2⟩

theorem Holds.putItem (counts : Counts type hasItem) (holds : Holds type hasItem table tags)
    (tag : Tag) (item : Item) (getcount : Int) (owner : Fin n) :
    Holds type hasItem (type.putItem table tag item getcount owner).1 (insert tag tags) := by
  obtain ⟨isItem, isSize⟩ := counts.putItem table tag item getcount owner
  refine ⟨fun other => ?_, ?_⟩
  · by_cases same : other = tag
    · simp [isItem, same]
    · simp [isItem, same, holds.mem other]
  · rw [isSize, holds.size]
    by_cases before : hasItem table tag = true
    · rw [if_pos before, Finset.insert_eq_of_mem ((holds.mem tag).mp before)]
    · rw [if_neg before,
        Finset.card_insert_of_notMem fun isMem => before ((holds.mem tag).mpr isMem)]

theorem Holds.erase (counts : Counts type hasItem) (holds : Holds type hasItem table tags)
    (tag : Tag) : Holds type hasItem (type.erase table tag).1 (tags.erase tag) := by
  obtain ⟨isItem, isSize⟩ := counts.erase table tag
  refine ⟨fun other => ?_, ?_⟩
  · by_cases same : other = tag
    · simp [isItem, same]
    · simp [isItem, same, holds.mem other]
  · rw [isSize, holds.size]
    by_cases before : hasItem table tag = true
    · rw [if_pos before, Finset.card_erase_of_mem ((holds.mem tag).mp before)]
    · rw [if_neg before,
        Finset.erase_eq_of_notMem fun isMem => before ((holds.mem tag).mpr isMem)]

theorem Holds.access (counts : Counts type hasItem) {held : Finset Tag}
    {history : List (Access Tag n Item)} {op : Access Tag n Item} {result : Table × Finset Tag}
    (holds : Holds type hasItem table (stored history))
    (isAccess : access type table held op = some result) :
    Holds type hasItem result.1 (stored (op :: history)) := by
  cases op with
  | putItem tag item getcount owner =>
      obtain ⟨-, isResult⟩ := Option.ite_none_left_eq_some.mp isAccess
      exact Option.some.inj isResult ▸ holds.putItem counts tag item getcount owner
  | getItemOrAccessor tag =>
      obtain ⟨-, isResult⟩ := Option.ite_none_left_eq_some.mp isAccess
      split at isResult
      · exact Option.some.inj isResult ▸ holds
      · exact Option.some.inj isResult ▸ holds.same (counts.getItem table tag)
  | getItemAndAccessor tag =>
      obtain ⟨-, isResult⟩ := Option.ite_none_left_eq_some.mp isAccess
      exact Option.some.inj isResult ▸ holds.same (counts.getItem table tag)
  | getAccessor tag =>
      obtain ⟨-, isResult⟩ := Option.ite_none_left_eq_some.mp isAccess
      split at isResult <;> exact Option.some.inj isResult ▸ holds
  | change tag change =>
      obtain ⟨-, isResult⟩ := Option.ite_none_right_eq_some.mp isAccess
      exact Option.some.inj isResult ▸ holds.same (counts.change table tag change)
  | erase tag =>
      obtain ⟨-, isResult⟩ := Option.ite_none_right_eq_some.mp isAccess
      exact Option.some.inj isResult ▸ holds.erase counts tag
  | release tag =>
      obtain ⟨-, isResult⟩ := Option.ite_none_right_eq_some.mp isAccess
      exact Option.some.inj isResult ▸ holds
  | clear =>
      obtain ⟨-, isResult⟩ := Option.ite_none_right_eq_some.mp isAccess
      exact Option.some.inj isResult ▸ .nothing (counts.clear table)

theorem Counts.holds (counts : Counts type hasItem) (reachable : Reachable (sessions type) s) :
    Holds type hasItem s.table (stored s.history) := by
  refine Reached.invariant (fun s => Holds type hasItem s.table (stored s.history))
    (fun s isStart => ?_) (fun s op next _ holds _ isStep => ?_) reachable
  · exact isStart ▸ .nothing counts.create
  · obtain ⟨result, isAccess, rfl⟩ := Option.map_eq_some_iff.mp isStep
    exact holds.access counts isAccess

end Counter

theorem putItem_item_isSome (entry : Option (Entry n Item)) (item : Item) (getcount : Int)
    (owner : Fin n) : (putItem entry item getcount owner).1.item.isSome = true := by
  cases before : (entry.getD .placeholder).item with
  | some old =>
      rw [putItem_of_present item getcount owner (by simp [before]), before]
      rfl
  | none =>
      obtain ⟨new, isNew, hasItem, -⟩ := putItem_of_absent item getcount owner before
      rw [isNew, hasItem]
      rfl

theorem putItem_size (entry : Option (Entry n Item)) (item : Item) (getcount : Int)
    (owner : Fin n) (size : Nat) :
    (if (putItem entry item getcount owner).2 then size + 1 else size) =
      if (entry.getD .placeholder).item.isSome then size else size + 1 := by
  cases before : (entry.getD .placeholder).item with
  | some old =>
      rw [putItem_of_present item getcount owner (by simp [before])]
      rfl
  | none =>
      obtain ⟨new, isNew, -⟩ := putItem_of_absent item getcount owner before
      rw [isNew]
      rfl

def VecItemTable.hasItem (table : VecItemTable sz n Item) (tag : Fin sz) : Bool :=
  (table.map tag).item.isSome

theorem VecItemTable.hasItem_setEntry (table : VecItemTable sz n Item) (tag : Fin sz)
    (entry : Entry n Item) : (table.setEntry tag entry).hasItem =
      Function.update table.hasItem tag entry.item.isSome := by
  funext other
  by_cases same : other = tag <;> simp [hasItem, setEntry, same]

theorem vecItemTable_counts :
    Counts (vecItemTable sz n Item).interface VecItemTable.hasItem where
  create := ⟨rfl, rfl⟩
  putItem table tag item getcount owner := by
    exact ⟨(table.hasItem_setEntry tag _).trans
      (congrArg (Function.update table.hasItem tag) (putItem_item_isSome _ item getcount owner)),
      putItem_size (some (table.map tag)) item getcount owner table.size⟩
  getItem _ _ := ⟨rfl, rfl⟩
  change table tag change := by
    refine ⟨(table.hasItem_setEntry tag _).trans ?_, rfl⟩
    rw [change.apply_item]
    exact Function.update_eq_self tag _
  erase table tag := ⟨table.hasItem_setEntry tag _, rfl⟩
  clear _ := ⟨rfl, rfl⟩

namespace HashMapTable

variable [DecidableEq Tag]

def hasItem (table : HashMapTable Tag n Item) (tag : Tag) : Bool :=
  (table.entry tag).item.isSome

theorem hasItem_setEntry (table : HashMapTable Tag n Item) (tag : Tag) (entry : Entry n Item) :
    (table.setEntry tag entry).hasItem = Function.update table.hasItem tag entry.item.isSome := by
  funext other
  by_cases same : other = tag
  · subst same
    simp [hasItem, HashMapTable.entry, setEntry]
  · simp [hasItem, HashMapTable.entry, setEntry, same, AList.lookup_insert_ne same]

theorem hasItem_erase (table : HashMapTable Tag n Item) (tag : Tag) :
    (table.erase tag).1.hasItem = Function.update table.hasItem tag false := by
  funext other
  by_cases same : other = tag
  · subst same
    simp [hasItem, HashMapTable.entry, erase, Entry.placeholder]
  · simp [hasItem, HashMapTable.entry, erase, same, AList.lookup_erase_ne same]

theorem hasItem_same (table : HashMapTable Tag n Item) (tag : Tag) {entry : Entry n Item}
    (same : entry.item = (table.entry tag).item) :
    (table.setEntry tag entry).hasItem = table.hasItem := by
  rw [hasItem_setEntry, same]
  exact Function.update_eq_self tag _

theorem mem_of_hasItem (table : HashMapTable Tag n Item) {tag : Tag}
    (present : table.hasItem tag = true) : tag ∈ table.map := by
  by_contra absent
  rw [hasItem, HashMapTable.entry, AList.lookup_eq_none.mpr absent] at present
  cases present

end HashMapTable

section HashMap

variable [DecidableEq Tag]

theorem hashMapTable_counts : Counts (hashMapTable Tag n Item) HashMapTable.hasItem where
  create := ⟨rfl, rfl⟩
  putItem table tag item getcount owner :=
    ⟨(table.hasItem_setEntry tag _).trans
      (congrArg (Function.update table.hasItem tag) (putItem_item_isSome _ item getcount owner)),
      putItem_size (table.map.lookup tag) item getcount owner table.size⟩
  getItem table tag := ⟨table.hasItem_same tag rfl, rfl⟩
  change table tag change := ⟨table.hasItem_same tag (change.apply_item _), rfl⟩
  erase table tag := ⟨table.hasItem_erase tag, rfl⟩
  clear _ := ⟨rfl, rfl⟩

/-- The map has the entries which were entered, those which are locked among them. -/
structure Enters (map : AList fun _ : Tag => Entry n Item) (held tags : Finset Tag) : Prop where
  mem : ∀ tag, tag ∈ map ↔ tag ∈ tags
  held : held ⊆ tags

variable {map : AList fun _ : Tag => Entry n Item} {held tags : Finset Tag}

theorem Enters.insert (enters : Enters map held tags) (tag : Tag) (entry : Entry n Item) :
    Enters (map.insert tag entry) (insert tag held) (insert tag tags) :=
  ⟨fun other => by simp [AList.mem_insert, enters.mem other],
    Finset.insert_subset_insert tag enters.held⟩

theorem Enters.erase (enters : Enters map held tags) (tag : Tag) :
    Enters (map.erase tag) (held.erase tag) (tags.erase tag) :=
  ⟨fun other => by simp [AList.mem_erase, enters.mem other],
    Finset.erase_subset_erase tag enters.held⟩

theorem Enters.access {table : HashMapTable Tag n Item} {history : List (Access Tag n Item)}
    {op : Access Tag n Item} {result : HashMapTable Tag n Item × Finset Tag}
    (enters : Enters table.map held (entered history))
    (isAccess : access (hashMapTable Tag n Item) table held op = some result) :
    Enters result.1.map result.2 (entered (op :: history)) := by
  cases op with
  | putItem tag item getcount owner =>
      obtain ⟨-, isResult⟩ := Option.ite_none_left_eq_some.mp isAccess
      exact Option.some.inj isResult ▸ enters.insert tag _
  | getItemOrAccessor tag =>
      obtain ⟨-, isResult⟩ := Option.ite_none_left_eq_some.mp isAccess
      split at isResult
      · rename_i present
        have isItem : table.hasItem tag = true := Option.isSome_map.symm.trans present
        have isMem := (enters.mem tag).mp (table.mem_of_hasItem isItem)
        rw [← Option.some.inj isResult, entered, Finset.insert_eq_of_mem isMem]
        exact enters
      · exact Option.some.inj isResult ▸ enters.insert tag _
  | getItemAndAccessor tag =>
      obtain ⟨-, isResult⟩ := Option.ite_none_left_eq_some.mp isAccess
      exact Option.some.inj isResult ▸ enters.insert tag _
  | getAccessor tag =>
      obtain ⟨-, isResult⟩ := Option.ite_none_left_eq_some.mp isAccess
      split at isResult
      · rename_i isEntry
        have isMem := (enters.mem tag).mp (AList.lookup_isSome.mp isEntry)
        exact Option.some.inj isResult ▸
          ⟨enters.mem, Finset.insert_subset_iff.mpr ⟨isMem, enters.held⟩⟩
      · exact Option.some.inj isResult ▸ enters
  | change tag change =>
      obtain ⟨isHeld, isResult⟩ := Option.ite_none_right_eq_some.mp isAccess
      have stays := enters.insert tag (change.apply (table.entry tag)).1
      rw [Finset.insert_eq_of_mem isHeld, Finset.insert_eq_of_mem (enters.held isHeld)] at stays
      exact Option.some.inj isResult ▸ stays
  | erase tag =>
      obtain ⟨-, isResult⟩ := Option.ite_none_right_eq_some.mp isAccess
      exact Option.some.inj isResult ▸ enters.erase tag
  | release tag =>
      obtain ⟨-, isResult⟩ := Option.ite_none_right_eq_some.mp isAccess
      exact Option.some.inj isResult ▸
        ⟨enters.mem, (Finset.erase_subset tag held).trans enters.held⟩
  | clear =>
      obtain ⟨-, isResult⟩ := Option.ite_none_right_eq_some.mp isAccess
      exact Option.some.inj isResult ▸ ⟨fun tag => by simp [hashMapTable, entered], subset_rfl⟩

theorem enters_of_reachable {s : Session (HashMapTable Tag n Item) Tag n Item}
    (reachable : Reachable (sessions (hashMapTable Tag n Item)) s) :
    Enters s.table.map s.held (entered s.history) := by
  refine Reached.invariant (fun s => Enters s.table.map s.held (entered s.history))
    (fun s isStart => ?_) (fun s op next _ enters _ isStep => ?_) reachable
  · exact isStart ▸ ⟨fun tag => by simp [hashMapTable, entered], subset_rfl⟩
  · obtain ⟨result, isAccess, rfl⟩ := Option.map_eq_some_iff.mp isStep
    exact enters.access isAccess

theorem Enters.empty_iff {table : HashMapTable Tag n Item}
    (enters : Enters table.map held tags) :
    (hashMapTable Tag n Item).empty table = true ↔ tags = ∅ := by
  have isEmpty : (hashMapTable Tag n Item).empty table = true ↔ table.map.entries = [] :=
    List.isEmpty_iff
  rw [isEmpty, Finset.eq_empty_iff_forall_notMem]
  constructor
  · intro nothing tag isMem
    have inMap := (enters.mem tag).mpr isMem
    rw [AList.mem_keys, AList.keys, nothing] at inMap
    cases inMap
  · intro nothing
    cases entries : table.map.entries with
    | nil => rfl
    | cons entry rest =>
        refine absurd ((enters.mem entry.1).mp ?_) (nothing entry.1)
        rw [AList.mem_keys, AList.keys, entries]
        exact List.mem_cons_self

end HashMap

/-- Both tables count the stored items.  The vector is empty exactly if it has none; the hash table
needs that no other tag has been entered then. -/
theorem size_empty_iff (Tag : Type v) [DecidableEq Tag] (sz n : Nat) (Item : Type u) :
    (∀ s, Reachable (sessions (vecItemTable sz n Item).interface) s →
      (vecItemTable sz n Item).size s.table = (stored s.history).card ∧
        ((vecItemTable sz n Item).empty s.table = true ↔
          (vecItemTable sz n Item).size s.table = 0)) ∧
    ∀ s, Reachable (sessions (hashMapTable Tag n Item)) s →
      (hashMapTable Tag n Item).size s.table = (stored s.history).card ∧
        (((hashMapTable Tag n Item).empty s.table = true ↔
            (hashMapTable Tag n Item).size s.table = 0) ↔
          (stored s.history = ∅ → entered s.history = ∅)) := by
  refine ⟨fun s reachable => ?_, fun s reachable => ?_⟩
  · exact ⟨(vecItemTable_counts.holds reachable).size, decide_eq_true_iff⟩
  · have holds := hashMapTable_counts.holds reachable
    have enters := enters_of_reachable reachable
    have subset : stored s.history ⊆ entered s.history := fun tag isStored =>
      (enters.mem tag).mp (s.table.mem_of_hasItem ((holds.mem tag).mpr isStored))
    refine ⟨holds.size, ?_⟩
    rw [enters.empty_iff, holds.size, Finset.card_eq_zero]
    exact ⟨Iff.mpr, fun noOthers =>
      ⟨fun nothing => Finset.subset_empty.mp (nothing ▸ subset), noOthers⟩⟩

/-- A get which fails leaves an entry in the map. -/
theorem empty_fails :
    ¬ ∀ s, Reachable (sessions (hashMapTable Nat 1 Nat)) s →
      ((hashMapTable Nat 1 Nat).empty s.table = true ↔
        (hashMapTable Nat 1 Nat).size s.table = 0) := by
  intro always
  have reached : Reachable (sessions (hashMapTable Nat 1 Nat)) _ :=
    Reached.run (.initial rfl) [.getItemOrAccessor 3, .release 3] rfl
  have isEmpty := (always _ reached).mpr rfl
  cases isEmpty

end CnC.Item
