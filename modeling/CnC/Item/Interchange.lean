import CnC.Item.Table

/-!
# Hash tables and vectors as item tables

`item_collection_base` works with any table that offers the operations below,
and the source has two of them.  An entry of the hash table is dropped when it
is erased.  The vector has an entry for every tag; erasing only clears the item,
and the other properties stay where they are.

The operations are taken one after the other.  Those which return an accessor
lock the entry until it is released or erased, and show its properties.
-/

namespace CnC.Item

universe u

variable {sz n : Nat} {Item : Type u}

/-- `item_properties::has_content`. -/
def Entry.hasContent (entry : Entry n Item) : Bool :=
  entry.suspendGroup ≠ 0 ∨ entry.subscribers ≠ [] ∨ entry.getCount ≠ unsetGetCount

/-- What the collection changes through an accessor. -/
inductive Change (n : Nat) where
  | setOrIncrementGetCount (cnt : Int)
  | setGetCount (cnt : Int)
  | decrementGetCount (cnt : Int)
  | suspend
  | resume
  | subscribe (recpnt : Fin n)
  | deliver
  deriving DecidableEq

def Change.apply : Change n → Entry n Item → Entry n Item × Int
  | .setOrIncrementGetCount cnt, entry => entry.setOrIncrementGetCount cnt
  | .setGetCount cnt, entry => (entry.setGetCount cnt, asInt cnt)
  | .decrementGetCount cnt, entry =>
      (entry.setGetCount (entry.getCount - cnt), asInt (entry.getCount - cnt))
  | .suspend, entry => (entry.suspend, 0)
  | .resume, entry => ({ entry with suspendGroup := 0 }, 0)
  | .subscribe recpnt, entry => (entry.subscribe recpnt, 0)
  | .deliver, entry => ({ entry with subscribers := [] }, 0)

def Entry.itemAndGc (entry : Entry n Item) : Option (Item × Bool) :=
  entry.item.map fun item => (item, decide (entry.getCount ≠ noGetCount))

/-- The interface which `item_collection_base` requires.  `get_item_or_accessor`
and `get_item_and_accessor` do the same to the table; the first one returns an
accessor only if there is no item. -/
structure TableType (Table : Type u) (sz n : Nat) (Item : Type u) where
  create : Table
  putItem : Table → Fin sz → Item → Int → Fin n → Table × Bool
  getItem : Table → Fin sz → Table × Option (Item × Bool)
  getAccessor : Table → Fin sz → Bool
  properties : Table → Fin sz → Entry n Item
  change : Table → Fin sz → Change n → Table × Int
  erase : Table → Fin sz → Table × Option Item
  size : Table → Nat
  empty : Table → Bool
  clear : Table → Table

structure HashItemTable (sz n : Nat) (Item : Type u) where
  map : Fin sz → Option (Entry n Item)
  size : Nat

namespace HashItemTable

def entry (table : HashItemTable sz n Item) (tag : Fin sz) : Entry n Item :=
  (table.map tag).getD .placeholder

def setEntry (table : HashItemTable sz n Item) (tag : Fin sz) (entry : Option (Entry n Item)) :
    HashItemTable sz n Item :=
  { table with map := Function.update table.map tag entry }

def putItem (table : HashItemTable sz n Item) (tag : Fin sz) (item : Item) (getcount : Int)
    (owner : Fin n) : HashItemTable sz n Item × Bool :=
  let (entry, inserted) := CnC.Item.putItem (table.map tag) item getcount owner
  ({ table.setEntry tag (some entry) with
    size := if inserted then table.size + 1 else table.size }, inserted)

def erase (table : HashItemTable sz n Item) (tag : Fin sz) :
    HashItemTable sz n Item × Option Item :=
  ({ table.setEntry tag none with
    size := if (table.entry tag).item.isSome then table.size - 1 else table.size },
    (table.entry tag).item)

end HashItemTable

def hashItemTable (sz n : Nat) (Item : Type u) :
    TableType (HashItemTable sz n Item) sz n Item where
  create := { map := fun _ => none, size := 0 }
  putItem := HashItemTable.putItem
  getItem table tag := (table.setEntry tag (some (table.entry tag)), (table.entry tag).itemAndGc)
  getAccessor table tag := (table.map tag).isSome
  properties := HashItemTable.entry
  change table tag change :=
    (table.setEntry tag (some (change.apply (table.entry tag)).1),
      (change.apply (table.entry tag)).2)
  erase := HashItemTable.erase
  size := HashItemTable.size
  empty table := decide (∀ tag, (table.map tag).isNone)
  clear _ := { map := fun _ => none, size := 0 }

structure VecItemTable (sz n : Nat) (Item : Type u) where
  map : Fin sz → Entry n Item
  size : Nat

namespace VecItemTable

def setEntry (table : VecItemTable sz n Item) (tag : Fin sz) (entry : Entry n Item) :
    VecItemTable sz n Item :=
  { table with map := Function.update table.map tag entry }

def putItem (table : VecItemTable sz n Item) (tag : Fin sz) (item : Item) (getcount : Int)
    (owner : Fin n) : VecItemTable sz n Item × Bool :=
  let (entry, inserted) := CnC.Item.putItem (some (table.map tag)) item getcount owner
  ({ table.setEntry tag entry with
    size := if inserted then table.size + 1 else table.size }, inserted)

def erase (table : VecItemTable sz n Item) (tag : Fin sz) :
    VecItemTable sz n Item × Option Item :=
  ({ table.setEntry tag { table.map tag with item := none } with
    size := if (table.map tag).item.isSome then table.size - 1 else table.size },
    (table.map tag).item)

end VecItemTable

def vecItemTable (sz n : Nat) (Item : Type u) :
    TableType (VecItemTable sz n Item) sz n Item where
  create := { map := fun _ => .placeholder, size := 0 }
  putItem := VecItemTable.putItem
  getItem table tag := (table, (table.map tag).itemAndGc)
  getAccessor table tag := (table.map tag).item.isSome || (table.map tag).hasContent
  properties := VecItemTable.map
  change table tag change :=
    (table.setEntry tag (change.apply (table.map tag)).1, (change.apply (table.map tag)).2)
  erase := VecItemTable.erase
  size := VecItemTable.size
  empty table := decide (table.size = 0)
  clear table := { map := fun tag => { table.map tag with item := none }, size := 0 }

inductive Op (sz n : Nat) (Item : Type u) where
  | putItem (tag : Fin sz) (item : Item) (getcount : Int) (owner : Fin n)
  | getItemOrAccessor (tag : Fin sz)
  | getItemAndAccessor (tag : Fin sz)
  | getAccessor (tag : Fin sz)
  | change (tag : Fin sz) (change : Change n)
  | erase (tag : Fin sz)
  | release (tag : Fin sz)
  | size
  | empty

inductive Result (n : Nat) (Item : Type u) where
  | inserted (success : Bool) (properties : Entry n Item)
  | got (item : Option (Item × Bool)) (properties : Option (Entry n Item))
  | accessor (properties : Option (Entry n Item))
  | changed (value : Int) (properties : Entry n Item)
  | erased (item : Option Item)
  | released
  | size (number : Nat)
  | empty (answer : Bool)
  deriving DecidableEq

structure Locked (Table : Type u) (sz : Nat) where
  table : Table
  held : Fin sz → Bool

section Run

variable {Table : Type u} (type : TableType Table sz n Item)

/-- An entry which is locked has to be released before it can be locked again,
and is changed or erased through its accessor only. -/
def perform (s : Locked Table sz) : Op sz n Item → Option (Locked Table sz × Result n Item)
  | .putItem tag item getcount owner =>
      if s.held tag then none
      else
        let (table, success) := type.putItem s.table tag item getcount owner
        some (⟨table, Function.update s.held tag true⟩,
          .inserted success (type.properties table tag))
  | .getItemOrAccessor tag =>
      if s.held tag then none
      else
        let (table, item) := type.getItem s.table tag
        match item with
        | some _ => some (⟨s.table, s.held⟩, .got item none)
        | none =>
            some (⟨table, Function.update s.held tag true⟩,
              .got none (some (type.properties table tag)))
  | .getItemAndAccessor tag =>
      if s.held tag then none
      else
        let (table, item) := type.getItem s.table tag
        some (⟨table, Function.update s.held tag true⟩,
          .got item (some (type.properties table tag)))
  | .getAccessor tag =>
      if s.held tag then none
      else if type.getAccessor s.table tag then
        some (⟨s.table, Function.update s.held tag true⟩,
          .accessor (some (type.properties s.table tag)))
      else some (s, .accessor none)
  | .change tag change =>
      if s.held tag then
        let (table, value) := type.change s.table tag change
        some (⟨table, s.held⟩, .changed value (type.properties table tag))
      else none
  | .erase tag =>
      if s.held tag then
        let (table, item) := type.erase s.table tag
        some (⟨table, Function.update s.held tag false⟩, .erased item)
      else none
  | .release tag =>
      if s.held tag then some (⟨s.table, Function.update s.held tag false⟩, .released) else none
  | .size => some (s, .size (type.size s.table))
  | .empty => some (s, .empty (type.empty s.table))

/-- The results of a sequence of operations, up to the first one which would
have to wait for an accessor. -/
def performAll : Locked Table sz → List (Op sz n Item) → Locked Table sz × List (Result n Item)
  | s, [] => (s, [])
  | s, op :: ops =>
      match perform type s op with
      | none => (s, [])
      | some (next, result) =>
          ((performAll next ops).1, result :: (performAll next ops).2)

def fresh : Locked Table sz where
  table := type.create
  held _ := false

/-- The results of a sequence of operations on a new table. -/
def results (ops : List (Op sz n Item)) : List (Result n Item) :=
  (performAll type (fresh type) ops).2

end Run

/-- What an erased entry of a vector has left behind does not show when the item
is put again: nobody waits for it, and it has no get-count to be added. -/
def Entry.Overwritten (left : Entry n Item) (getcount : Int) : Prop :=
  left.suspendGroup = 0 ∧ left.subscribers = [] ∧ (getcount = noGetCount ∨ left.recorded = 0)

/-- The operation does not tell the tables from each other.  `left` is what the
erased entries of a vector have left behind: for a tag without an entry in the
hash table it must not show.  An accessor is not asked for an entry with neither
an item nor any content, and `empty` not for a table which has entries but no
item. -/
def Harmless (table : HashItemTable sz n Item) (left : Fin sz → Entry n Item) :
    Op sz n Item → Prop
  | .putItem tag _ getcount _ => table.map tag = none → (left tag).Overwritten getcount
  | .getItemOrAccessor tag => table.map tag = none → left tag = .placeholder
  | .getItemAndAccessor tag => table.map tag = none → left tag = .placeholder
  | .getAccessor tag =>
      match table.map tag with
      | none => (left tag).hasContent = false
      | some entry => entry.item ≠ none ∨ entry.hasContent = true
  | .empty => table.size = 0 → ∀ tag, table.map tag = none
  | _ => True

def leftBy (table : HashItemTable sz n Item) (left : Fin sz → Entry n Item) :
    Op sz n Item → Fin sz → Entry n Item
  | .erase tag => Function.update left tag { table.entry tag with item := none }
  | _ => left

/-- Every operation of a sequence is harmless when it is its turn. -/
def Compatible : Locked (HashItemTable sz n Item) sz → (Fin sz → Entry n Item) →
    List (Op sz n Item) → Prop
  | _, _, [] => True
  | s, left, op :: ops =>
      match perform (hashItemTable sz n Item) s op with
      | none => True
      | some (next, _) =>
          Harmless s.table left op ∧ Compatible next (leftBy s.table left op) ops

def HashItemTable.items (table : HashItemTable sz n Item) : Finset (Fin sz) :=
  Finset.univ.filter fun tag => (table.entry tag).item.isSome

/-- The vector has the entries of the hash table and what erased ones have left
behind. -/
structure Matches (hash : Locked (HashItemTable sz n Item) sz)
    (vec : Locked (VecItemTable sz n Item) sz) (left : Fin sz → Entry n Item) : Prop where
  entries : ∀ tag, vec.table.map tag = (hash.table.map tag).getD (left tag)
  gone : ∀ tag, (left tag).item = none
  size : vec.table.size = hash.table.size
  held : vec.held = hash.held
  locked : ∀ tag, hash.held tag = true → hash.table.map tag ≠ none
  counted : hash.table.size = hash.table.items.card

section Matches

variable {hash : Locked (HashItemTable sz n Item) sz} {vec : Locked (VecItemTable sz n Item) sz}
  {left : Fin sz → Entry n Item}

theorem asInt_add_eq_iff {count : Int} (isInt : noGetCount ≤ count ∧ count ≤ intMax) (cnt : Int) :
    asInt (count + cnt) = asInt cnt ↔ count = 0 := by
  have stays : count.bmod (2 ^ 32) = count := asInt_of_isInt isInt
  unfold asInt
  rw [Int.bmod_eq_bmod_iff_bmod_sub_eq_zero, add_sub_cancel_right, stays]

theorem putItem_eq_iff {left : Entry n Item} (gone : left.item = none) (item : Item)
    (getcount : Int) (owner : Fin n) :
    putItem (some left) item getcount owner = putItem none item getcount owner ↔
      left.Overwritten getcount := by
  unfold putItem Entry.Overwritten
  simp only [Option.getD_some, Option.getD_none, gone, Entry.placeholder, Entry.recorded,
    Entry.setOrIncrementGetCount]
  by_cases uncounted : getcount = noGetCount
  · simp [uncounted]
  · by_cases isUnset : left.getCount = unsetGetCount
    · simp [uncounted, isUnset, Entry.setGetCount]
    · simp [uncounted, isUnset, Entry.setGetCount, asInt_add_eq_iff left.isInt]

theorem putItem_inserted {left : Entry n Item} (gone : left.item = none) (item : Item)
    (getcount : Int) (owner : Fin n) :
    (putItem (some left) item getcount owner).2 = true := by
  simp [putItem, gone]

theorem HashItemTable.entry_setEntry (table : HashItemTable sz n Item) (tag other : Fin sz)
    (entry : Option (Entry n Item)) :
    (table.setEntry tag entry).entry other =
      if other = tag then entry.getD .placeholder else table.entry other := by
  by_cases same : other = tag <;> simp [HashItemTable.entry, HashItemTable.setEntry, same]

theorem HashItemTable.items_setEntry (table : HashItemTable sz n Item) (tag : Fin sz)
    (entry : Option (Entry n Item)) :
    (table.setEntry tag entry).items =
      if (entry.getD .placeholder).item.isSome then insert tag table.items
      else table.items.erase tag := by
  ext other
  simp only [HashItemTable.items, HashItemTable.entry_setEntry, Finset.mem_filter,
    Finset.mem_univ, true_and]
  by_cases present : (entry.getD .placeholder).item.isSome = true
  · by_cases same : other = tag <;> simp [present, same]
  · by_cases same : other = tag <;> simp [present, same]

theorem HashItemTable.card_items_insert (table : HashItemTable sz n Item) (tag : Fin sz)
    {entry : Entry n Item} (present : entry.item.isSome) :
    (table.setEntry tag (some entry)).items.card =
      if (table.entry tag).item.isSome then table.items.card else table.items.card + 1 := by
  rw [HashItemTable.items_setEntry, Option.getD_some, if_pos present]
  by_cases before : (table.entry tag).item.isSome = true
  · rw [if_pos before, Finset.insert_eq_of_mem (by simp [HashItemTable.items, before])]
  · rw [if_neg before, Finset.card_insert_of_notMem (by simp [HashItemTable.items, before])]

theorem HashItemTable.card_items_erase (table : HashItemTable sz n Item) (tag : Fin sz)
    {entry : Option (Entry n Item)} (absent : (entry.getD .placeholder).item = none) :
    (table.setEntry tag entry).items.card =
      if (table.entry tag).item.isSome then table.items.card - 1 else table.items.card := by
  rw [HashItemTable.items_setEntry, absent, if_neg (by simp)]
  by_cases before : (table.entry tag).item.isSome = true
  · rw [if_pos before, Finset.card_erase_of_mem (by simp [HashItemTable.items, before])]
  · rw [if_neg before, Finset.erase_eq_of_notMem (by simp [HashItemTable.items, before])]

theorem HashItemTable.card_items_same (table : HashItemTable sz n Item) (tag : Fin sz)
    {entry : Entry n Item} (same : entry.item = (table.entry tag).item) :
    (table.setEntry tag (some entry)).items.card = table.items.card := by
  cases before : (table.entry tag).item with
  | none =>
      have absent : ((some entry).getD .placeholder).item = none := same.trans before
      simp [table.card_items_erase tag absent, before]
  | some item =>
      have present : entry.item.isSome := by simp [same, before]
      simp [table.card_items_insert tag present, before]

theorem HashItemTable.card_items_putItem (table : HashItemTable sz n Item) (tag : Fin sz)
    (item : Item) (getcount : Int) (owner : Fin n) :
    (table.setEntry tag (some (CnC.Item.putItem (table.map tag) item getcount owner).1)).items.card =
      if (CnC.Item.putItem (table.map tag) item getcount owner).2 then table.items.card + 1
      else table.items.card := by
  cases before : (table.entry tag).item with
  | some old =>
      have present : ((table.map tag).getD .placeholder).item ≠ none := by
        rw [← HashItemTable.entry, before]
        exact Option.some_ne_none old
      rw [putItem_of_present item getcount owner present]
      exact table.card_items_same tag rfl
  | none =>
      obtain ⟨new, put, hasItem, -⟩ := putItem_of_absent item getcount owner before
      rw [put, table.card_items_insert tag (by simp [hasItem]), before]
      rfl

theorem HashItemTable.card_items_of_empty (table : HashItemTable sz n Item)
    (empty : ∀ tag, table.map tag = none) : table.items.card = 0 := by
  simp [HashItemTable.items, HashItemTable.entry, empty, Entry.placeholder]

theorem Matches.stored (matched : Matches hash vec left) (tag : Fin sz) (entry : Entry n Item)
    {size : Nat} {held : Fin sz → Bool}
    (heldBefore : ∀ other, other ≠ tag → held other = true → hash.held other = true)
    (counted : size = (hash.table.setEntry tag (some entry)).items.card) :
    Matches ⟨{ hash.table.setEntry tag (some entry) with size := size }, held⟩
      ⟨{ vec.table.setEntry tag entry with size := size }, held⟩ left where
  entries other := by
    by_cases same : other = tag
    · subst same
      simp [VecItemTable.setEntry, HashItemTable.setEntry]
    · simpa [VecItemTable.setEntry, HashItemTable.setEntry, same] using matched.entries other
  gone := matched.gone
  size := rfl
  held := rfl
  locked other isHeld := by
    by_cases same : other = tag
    · subst same
      simp [HashItemTable.setEntry]
    · simpa [HashItemTable.setEntry, same] using matched.locked other (heldBefore other same isHeld)
  counted := counted

theorem Matches.replaced (matched : Matches hash vec left) (tag : Fin sz) {entry : Entry n Item}
    {held : Fin sz → Bool}
    (heldBefore : ∀ other, other ≠ tag → held other = true → hash.held other = true)
    (sameItem : entry.item = (hash.table.entry tag).item) :
    Matches ⟨hash.table.setEntry tag (some entry), held⟩ ⟨vec.table.setEntry tag entry, held⟩
      left := by
  have stored := matched.stored tag entry heldBefore
    (matched.counted.trans (hash.table.card_items_same tag sameItem).symm)
  have vecSize : { vec.table.setEntry tag entry with size := hash.table.size } =
      vec.table.setEntry tag entry := by
    rw [← matched.size]
    rfl
  rw [vecSize] at stored
  exact stored

theorem heldBefore_update (held : Fin sz → Bool) (tag : Fin sz) (isHeld : Bool) (other : Fin sz)
    (different : other ≠ tag) (after : Function.update held tag isHeld other = true) :
    held other = true := by
  rwa [Function.update_of_ne different] at after

theorem Matches.vec_entry_of_some (matched : Matches hash vec left) {tag : Fin sz}
    {entry : Entry n Item} (present : hash.table.map tag = some entry) :
    vec.table.map tag = entry ∧ hash.table.entry tag = entry := by
  constructor
  · rw [matched.entries, present, Option.getD_some]
  · rw [HashItemTable.entry, present, Option.getD_some]

theorem Matches.vec_entry_of_none (matched : Matches hash vec left) {tag : Fin sz}
    (absent : hash.table.map tag = none) :
    vec.table.map tag = left tag ∧ hash.table.entry tag = .placeholder := by
  constructor
  · rw [matched.entries, absent, Option.getD_none]
  · rw [HashItemTable.entry, absent, Option.getD_none]

theorem Matches.putItem (matched : Matches hash vec left) (tag : Fin sz) (item : Item)
    (getcount : Int) (owner : Fin n) :
    (CnC.Item.putItem (some (vec.table.map tag)) item getcount owner =
        CnC.Item.putItem (hash.table.map tag) item getcount owner ↔
      Harmless hash.table left (.putItem tag item getcount owner)) ∧
    (CnC.Item.putItem (some (vec.table.map tag)) item getcount owner).2 =
      (CnC.Item.putItem (hash.table.map tag) item getcount owner).2 := by
  cases found : hash.table.map tag with
  | some entry =>
      rw [(matched.vec_entry_of_some found).1]
      simp [Harmless, found]
  | none =>
      rw [(matched.vec_entry_of_none found).1, putItem_eq_iff (matched.gone tag),
        putItem_inserted (matched.gone tag)]
      simp [Harmless, found, CnC.Item.putItem, Entry.placeholder]

/-- An operation can be performed on both tables or on none.  The results are the
same if it is harmless, and only then; the tables match again after it. -/
def InStep (hash : Locked (HashItemTable sz n Item) sz) (vec : Locked (VecItemTable sz n Item) sz)
    (left : Fin sz → Entry n Item) (op : Op sz n Item) : Prop :=
  (perform (hashItemTable sz n Item) hash op = none ∧
    perform (vecItemTable sz n Item) vec op = none) ∨
  ∃ next result vecNext vecResult,
    perform (hashItemTable sz n Item) hash op = some (next, result) ∧
    perform (vecItemTable sz n Item) vec op = some (vecNext, vecResult) ∧
    (vecResult = result ↔ Harmless hash.table left op) ∧
    (Harmless hash.table left op → Matches next vecNext (leftBy hash.table left op))

theorem Matches.inStep_putItem (matched : Matches hash vec left) (tag : Fin sz) (item : Item)
    (getcount : Int) (owner : Fin n) :
    InStep hash vec left (.putItem tag item getcount owner) := by
  unfold InStep
  obtain ⟨sameEntry, sameFlag⟩ := matched.putItem tag item getcount owner
  cases isHeld : hash.held tag with
  | true => exact .inl ⟨by simp [perform, isHeld], by simp [perform, matched.held, isHeld]⟩
  | false =>
      refine .inr ⟨_, _, _, _, by simp only [perform, isHeld]; rfl,
        by simp only [perform, matched.held, isHeld]; rfl, ?_, ?_⟩
      · rw [← sameEntry, Prod.ext_iff, and_iff_left sameFlag]
        simp [hashItemTable, vecItemTable, HashItemTable.putItem, VecItemTable.putItem,
          HashItemTable.entry, HashItemTable.setEntry, VecItemTable.setEntry, sameFlag]
      · intro harmless
        have same := sameEntry.2 harmless
        simp only [hashItemTable, vecItemTable, HashItemTable.putItem, VecItemTable.putItem, same,
          matched.size, leftBy]
        refine matched.stored tag _ (heldBefore_update hash.held tag true) ?_
        rw [hash.table.card_items_putItem, matched.counted]

theorem Matches.got (matched : Matches hash vec left) {tag : Fin sz}
    (harmless : hash.table.map tag = none → left tag = .placeholder) :
    Matches ⟨hash.table.setEntry tag (some (hash.table.entry tag)),
        Function.update hash.held tag true⟩
      ⟨vec.table, Function.update vec.held tag true⟩ left := by
  have sameEntry : vec.table.map tag = hash.table.entry tag := by
    cases found : hash.table.map tag with
    | some entry =>
        rw [(matched.vec_entry_of_some found).1, (matched.vec_entry_of_some found).2]
    | none =>
        rw [(matched.vec_entry_of_none found).1, (matched.vec_entry_of_none found).2,
          harmless found]
  have unchanged : vec.table.setEntry tag (hash.table.entry tag) = vec.table := by
    simp [VecItemTable.setEntry, ← sameEntry]
  have replaced := matched.replaced tag (heldBefore_update hash.held tag true)
    (rfl : (hash.table.entry tag).item = _)
  rw [unchanged] at replaced
  rw [matched.held]
  exact replaced

theorem Matches.itemAndGc (matched : Matches hash vec left) (tag : Fin sz) :
    (vec.table.map tag).itemAndGc = (hash.table.entry tag).itemAndGc := by
  cases found : hash.table.map tag with
  | some entry => rw [(matched.vec_entry_of_some found).1, (matched.vec_entry_of_some found).2]
  | none =>
      rw [(matched.vec_entry_of_none found).1, (matched.vec_entry_of_none found).2]
      simp [Entry.itemAndGc, matched.gone, Entry.placeholder]

theorem Matches.entry_eq_iff (matched : Matches hash vec left) (tag : Fin sz) :
    vec.table.map tag = hash.table.entry tag ↔
      (hash.table.map tag = none → left tag = .placeholder) := by
  cases found : hash.table.map tag with
  | some entry =>
      simp [(matched.vec_entry_of_some found).1, (matched.vec_entry_of_some found).2]
  | none => simp [(matched.vec_entry_of_none found).1, (matched.vec_entry_of_none found).2]

theorem Matches.inStep_getItemAndAccessor (matched : Matches hash vec left) (tag : Fin sz) :
    InStep hash vec left (.getItemAndAccessor tag) := by
  unfold InStep
  cases isHeld : hash.held tag with
  | true => exact .inl ⟨by simp [perform, isHeld], by simp [perform, matched.held, isHeld]⟩
  | false =>
      refine .inr ⟨_, _, _, _, by simp only [perform, isHeld]; rfl,
        by simp only [perform, matched.held, isHeld]; rfl, ?_, ?_⟩
      · simp only [hashItemTable, vecItemTable, Harmless, matched.itemAndGc, Result.got.injEq,
          true_and, Option.some.injEq, HashItemTable.entry_setEntry, if_true, Option.getD_some]
        exact matched.entry_eq_iff tag
      · intro harmless
        have got := matched.got harmless
        rw [matched.held] at got
        exact got

theorem Matches.inStep_getItemOrAccessor (matched : Matches hash vec left) (tag : Fin sz) :
    InStep hash vec left (.getItemOrAccessor tag) := by
  unfold InStep
  cases isHeld : hash.held tag with
  | true => exact .inl ⟨by simp [perform, isHeld], by simp [perform, matched.held, isHeld]⟩
  | false =>
      right
      cases item : (hash.table.entry tag).itemAndGc with
      | some itemAndGc =>
          have vecItem := (matched.itemAndGc tag).trans item
          have present : hash.table.map tag ≠ none := by
            intro absent
            simp [(matched.vec_entry_of_none absent).2, Entry.itemAndGc, Entry.placeholder] at item
          refine ⟨hash, .got (some itemAndGc) none, vec, .got (some itemAndGc) none, ?_, ?_, ?_,
            fun _ => matched⟩
          · simp [perform, isHeld, hashItemTable, item]
          · have vecHeld : vec.held tag = false := by rw [matched.held, isHeld]
            simp [perform, vecHeld, vecItemTable, vecItem]
          · simp [Harmless, present]
      | none =>
          have vecItem := (matched.itemAndGc tag).trans item
          refine ⟨_, .got none (some (hash.table.entry tag)), _,
            .got none (some (vec.table.map tag)), ?_, ?_, ?_, fun harmless => matched.got harmless⟩
          · simp [perform, isHeld, hashItemTable, item, HashItemTable.entry_setEntry]
          · simp [perform, matched.held, isHeld, vecItemTable, vecItem]
          · simpa [Harmless] using matched.entry_eq_iff tag

theorem Matches.access (matched : Matches hash vec left) {tag : Fin sz}
    (present : hash.table.map tag ≠ none) (isHeld : Bool) :
    Matches ⟨hash.table, Function.update hash.held tag isHeld⟩
      ⟨vec.table, Function.update vec.held tag isHeld⟩ left where
  entries := matched.entries
  gone := matched.gone
  size := matched.size
  held := by rw [matched.held]
  locked other otherHeld := by
    by_cases same : other = tag
    · subst same
      exact present
    · exact matched.locked other (heldBefore_update hash.held tag isHeld other same otherHeld)
  counted := matched.counted

theorem Matches.inStep_getAccessor (matched : Matches hash vec left) (tag : Fin sz) :
    InStep hash vec left (.getAccessor tag) := by
  unfold InStep
  cases isHeld : hash.held tag with
  | true => exact .inl ⟨by simp [perform, isHeld], by simp [perform, matched.held, isHeld]⟩
  | false =>
      right
      cases found : hash.table.map tag with
      | some entry =>
          obtain ⟨vecEntry, hashEntry⟩ := matched.vec_entry_of_some found
          by_cases shows : entry.item.isSome = true ∨ entry.hasContent = true
          · refine ⟨_, .accessor (some entry), _, .accessor (some entry), ?_, ?_, ?_,
              fun _ => matched.access (found ▸ Option.some_ne_none entry) true⟩
            · simp [perform, isHeld, hashItemTable, found, hashEntry]
            · simp [perform, matched.held, isHeld, vecItemTable, vecEntry, shows]
            · simpa [Harmless, found, Option.isSome_iff_ne_none] using shows
          · refine ⟨⟨hash.table, Function.update hash.held tag true⟩, .accessor (some entry), vec,
              .accessor none, ?_, ?_, ?_, ?_⟩
            · simp [perform, isHeld, hashItemTable, found, hashEntry]
            · simp [perform, matched.held, isHeld, vecItemTable, vecEntry, shows]
            · simpa [Harmless, found, Option.isSome_iff_ne_none] using shows
            · intro harmless
              exact absurd (by simpa [Harmless, found, Option.isSome_iff_ne_none] using harmless) shows
      | none =>
          obtain ⟨vecEntry, hashEntry⟩ := matched.vec_entry_of_none found
          have noItem := matched.gone tag
          have vecHeld : vec.held tag = false := by rw [matched.held, isHeld]
          cases content : (left tag).hasContent with
          | false =>
              refine ⟨hash, .accessor none, vec, .accessor none, ?_, ?_, ?_, fun _ => matched⟩
              · simp [perform, isHeld, hashItemTable, found]
              · simp [perform, vecHeld, vecItemTable, vecEntry, noItem, content]
              · simp [Harmless, found, content]
          | true =>
              refine ⟨hash, .accessor none, ⟨vec.table, Function.update vec.held tag true⟩,
                .accessor (some (left tag)), ?_, ?_, ?_, ?_⟩
              · simp [perform, isHeld, hashItemTable, found]
              · simp [perform, vecHeld, vecItemTable, vecEntry, content]
              · simp [Harmless, found, content]
              · intro harmless
                simp [Harmless, found, content] at harmless

theorem Matches.erased (matched : Matches hash vec left) {tag : Fin sz}
    (sameEntry : vec.table.map tag = hash.table.entry tag) :
    Matches ⟨(hash.table.erase tag).1, Function.update hash.held tag false⟩
      ⟨(vec.table.erase tag).1, Function.update hash.held tag false⟩
      (Function.update left tag { hash.table.entry tag with item := none }) where
  entries other := by
    by_cases same : other = tag
    · subst same
      simp [VecItemTable.erase, HashItemTable.erase, VecItemTable.setEntry,
        HashItemTable.setEntry, sameEntry]
    · simpa [VecItemTable.erase, HashItemTable.erase, VecItemTable.setEntry,
        HashItemTable.setEntry, same] using matched.entries other
  gone other := by
    by_cases same : other = tag
    · subst same
      simp
    · simpa [same] using matched.gone other
  size := by simp [VecItemTable.erase, HashItemTable.erase, sameEntry, matched.size]
  held := rfl
  locked other otherHeld := by
    by_cases same : other = tag
    · subst same
      simp at otherHeld
    · have before := heldBefore_update hash.held tag false other same otherHeld
      simpa [HashItemTable.erase, HashItemTable.setEntry, same] using
        matched.locked other before
  counted := by
    have absent : ((none : Option (Entry n Item)).getD .placeholder).item = none := rfl
    have card := hash.table.card_items_erase tag absent
    rw [← matched.counted] at card
    exact card.symm

theorem Change.apply_item (change : Change n) (entry : Entry n Item) :
    (change.apply entry).1.item = entry.item := by
  cases change <;> simp [Change.apply, Entry.suspend, Entry.subscribe]

theorem Matches.inStep_change (matched : Matches hash vec left) (tag : Fin sz)
    (change : Change n) : InStep hash vec left (.change tag change) := by
  unfold InStep
  cases isHeld : hash.held tag with
  | false => exact .inl ⟨by simp [perform, isHeld], by simp [perform, matched.held, isHeld]⟩
  | true =>
      have sameEntry : vec.table.map tag = hash.table.entry tag :=
        (matched.entry_eq_iff tag).2 fun absent => absurd absent (matched.locked tag isHeld)
      refine .inr ⟨_, _, _, _, by simp only [perform, isHeld]; rfl,
        by simp only [perform, matched.held, isHeld]; rfl, ?_, fun _ => ?_⟩
      · simp [hashItemTable, vecItemTable, Harmless, sameEntry, HashItemTable.entry_setEntry,
          VecItemTable.setEntry]
      · simp only [hashItemTable, vecItemTable, sameEntry, leftBy]
        exact matched.replaced tag (fun _ _ => id) (change.apply_item _)

theorem Matches.inStep_erase (matched : Matches hash vec left) (tag : Fin sz) :
    InStep hash vec left (.erase tag) := by
  unfold InStep
  cases isHeld : hash.held tag with
  | false => exact .inl ⟨by simp [perform, isHeld], by simp [perform, matched.held, isHeld]⟩
  | true =>
      have sameEntry : vec.table.map tag = hash.table.entry tag :=
        (matched.entry_eq_iff tag).2 fun absent => absurd absent (matched.locked tag isHeld)
      refine .inr ⟨_, _, _, _, by simp only [perform, isHeld]; rfl,
        by simp only [perform, matched.held, isHeld]; rfl, ?_, fun _ => ?_⟩
      · simp [hashItemTable, vecItemTable, HashItemTable.erase, VecItemTable.erase, Harmless,
          sameEntry]
      · exact matched.erased sameEntry

theorem Matches.inStep_release (matched : Matches hash vec left) (tag : Fin sz) :
    InStep hash vec left (.release tag) := by
  unfold InStep
  cases isHeld : hash.held tag with
  | false => exact .inl ⟨by simp [perform, isHeld], by simp [perform, matched.held, isHeld]⟩
  | true =>
      refine .inr ⟨_, _, _, _, by simp only [perform, isHeld]; rfl,
        by simp only [perform, matched.held, isHeld]; rfl, ?_, fun _ => ?_⟩
      · simp [Harmless]
      · have released := matched.access (matched.locked tag isHeld) false
        rw [matched.held] at released
        exact released

theorem Matches.inStep_empty (matched : Matches hash vec left) : InStep hash vec left .empty := by
  refine .inr ⟨_, _, _, _, rfl, rfl, ?_, fun _ => matched⟩
  have noItems := hash.table.card_items_of_empty
  rw [← matched.counted] at noItems
  simp only [Harmless, hashItemTable, vecItemTable, matched.size, Result.empty.injEq,
    decide_eq_decide, Option.isNone_iff_eq_none]
  exact ⟨Iff.mp, fun harmless => ⟨harmless, noItems⟩⟩

theorem Matches.inStep (matched : Matches hash vec left) (op : Op sz n Item) :
    InStep hash vec left op := by
  cases op with
  | putItem tag item getcount owner => exact matched.inStep_putItem tag item getcount owner
  | getItemOrAccessor tag => exact matched.inStep_getItemOrAccessor tag
  | getItemAndAccessor tag => exact matched.inStep_getItemAndAccessor tag
  | getAccessor tag => exact matched.inStep_getAccessor tag
  | change tag change => exact matched.inStep_change tag change
  | erase tag => exact matched.inStep_erase tag
  | release tag => exact matched.inStep_release tag
  | size =>
      refine .inr ⟨_, _, _, _, rfl, rfl, ?_, fun _ => matched⟩
      simp [Harmless, hashItemTable, vecItemTable, matched.size]
  | empty => exact matched.inStep_empty

theorem Matches.performAll (matched : Matches hash vec left) (ops : List (Op sz n Item)) :
    (performAll (vecItemTable sz n Item) vec ops).2 =
        (performAll (hashItemTable sz n Item) hash ops).2 ↔
      Compatible hash left ops := by
  induction ops generalizing hash vec left with
  | nil => simp [CnC.Item.performAll, Compatible]
  | cons op ops inductionHypothesis =>
      rcases matched.inStep op with ⟨hashWaits, vecWaits⟩ |
          ⟨next, result, vecNext, vecResult, hashStep, vecStep, sameResult, nextMatches⟩
      · simp [CnC.Item.performAll, Compatible, hashWaits, vecWaits]
      · simp only [CnC.Item.performAll, Compatible, hashStep, vecStep, List.cons.injEq, sameResult]
        exact and_congr_right fun harmless => inductionHypothesis (nextMatches harmless)

end Matches

theorem fresh_matches :
    Matches (fresh (hashItemTable sz n Item)) (fresh (vecItemTable sz n Item))
      (fun _ => .placeholder) where
  entries _ := rfl
  gone _ := rfl
  size := rfl
  held := rfl
  locked _ isHeld := by simp [fresh] at isHeld
  counted := ((fresh (hashItemTable sz n Item)).table.card_items_of_empty fun _ => rfl).symm

/-- The results of a sequence of operations do not depend on the table exactly if
every operation of it is harmless. -/
theorem tables_interchangeable (ops : List (Op sz n Item)) :
    results (vecItemTable sz n Item) ops = results (hashItemTable sz n Item) ops ↔
      Compatible (fresh (hashItemTable sz n Item)) (fun _ => .placeholder) ops :=
  fresh_matches.performAll ops

/-- The item is erased by its last get.  A further decrement finds no entry in the
hash table, but the vector still has a get-count for it. -/
theorem vec_accessor_after_erase :
    ¬ ∀ ops : List (Op 1 1 Nat),
      results (vecItemTable 1 1 Nat) ops = results (hashItemTable 1 1 Nat) ops := by
  intro interchangeable
  have same := interchangeable
    [.putItem 0 7 1 0, .release 0, .getAccessor 0, .change 0 (.setOrIncrementGetCount (-1)),
      .erase 0, .getAccessor 0]
  revert same
  decide

end CnC.Item
