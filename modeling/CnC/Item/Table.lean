import Mathlib.Data.Fin.Basic
import Mathlib.Tactic

/-!
# Item tables

The entry of an item table holds the item and its properties: the suspend
group, the processes which subscribed to the item, its owner and its get-count.
An entry without an item is a placeholder left by a failed get, by a request of
another process, or by a get-count which arrived before the item.
-/

namespace CnC.Item

universe u

variable {n : Nat} {Item : Type u}

def noGetCount : Int := -2147483648

def unsetGetCount : Int := -2147483647

def intMax : Int := 2147483647

/-- The value as an `int` of 32 bits, which wraps around. -/
def asInt (value : Int) : Int := value.bmod (2 ^ 32)

theorem asInt_isInt (value : Int) : noGetCount ≤ asInt value ∧ asInt value ≤ intMax := by
  have lower := @Int.le_bmod value (2 ^ 32) (by decide)
  have upper := @Int.bmod_lt value (2 ^ 32) (by decide)
  unfold asInt noGetCount intMax
  omega

theorem asInt_of_isInt {value : Int} (isInt : noGetCount ≤ value ∧ value ≤ intMax) :
    asInt value = value := by
  unfold noGetCount intMax at isInt
  exact Int.bmod_eq_of_le (by omega) (by omega)

@[simp]
theorem asInt_noGetCount : asInt noGetCount = noGetCount := by
  decide

theorem noGetCount_le : noGetCount ≤ intMax := by
  decide

/-- An item with its properties.  The suspend group is given by the number of
its members and the list of subscribers by its elements; both are NULL in the
source when there are none. -/
structure Entry (n : Nat) (Item : Type u) where
  item : Option Item
  suspendGroup : Nat
  subscribers : List (Fin n)
  owner : Option (Fin n)
  getCount : Int
  isInt : noGetCount ≤ getCount ∧ getCount ≤ intMax
  deriving DecidableEq

namespace Entry

/-- A new entry, as inserted by an accessor. -/
def placeholder : Entry n Item where
  item := none
  suspendGroup := 0
  subscribers := []
  owner := none
  getCount := unsetGetCount
  isInt := by decide

def setGetCount (entry : Entry n Item) (cnt : Int) : Entry n Item :=
  { entry with getCount := asInt cnt, isInt := asInt_isInt cnt }

/-- The new count, together with the value the source returns: it is the old
one if the count was not set before. -/
def setOrIncrementGetCount (entry : Entry n Item) (cnt : Int) : Entry n Item × Int :=
  if entry.getCount = unsetGetCount then (entry.setGetCount cnt, unsetGetCount)
  else (entry.setGetCount (entry.getCount + cnt), asInt (entry.getCount + cnt))

def suspend (entry : Entry n Item) : Entry n Item :=
  { entry with suspendGroup := entry.suspendGroup + 1 }

def subscribe (entry : Entry n Item) (recpnt : Fin n) : Entry n Item :=
  { entry with subscribers := entry.subscribers ++ [recpnt] }

/-- The decrements and get-counts recorded in an entry; a count which was never
set records none. -/
def recorded (entry : Entry n Item) : Int :=
  if entry.getCount = unsetGetCount then 0 else entry.getCount

@[simp]
theorem setGetCount_getCount (entry : Entry n Item) (cnt : Int) :
    (entry.setGetCount cnt).getCount = asInt cnt := rfl

@[simp]
theorem setGetCount_item (entry : Entry n Item) (cnt : Int) :
    (entry.setGetCount cnt).item = entry.item := rfl

@[simp]
theorem setGetCount_owner (entry : Entry n Item) (cnt : Int) :
    (entry.setGetCount cnt).owner = entry.owner := rfl

@[simp]
theorem setGetCount_suspendGroup (entry : Entry n Item) (cnt : Int) :
    (entry.setGetCount cnt).suspendGroup = entry.suspendGroup := rfl

@[simp]
theorem setGetCount_subscribers (entry : Entry n Item) (cnt : Int) :
    (entry.setGetCount cnt).subscribers = entry.subscribers := rfl

@[simp]
theorem setOrIncrementGetCount_item (entry : Entry n Item) (cnt : Int) :
    (entry.setOrIncrementGetCount cnt).1.item = entry.item := by
  unfold setOrIncrementGetCount
  split <;> rfl

@[simp]
theorem setOrIncrementGetCount_owner (entry : Entry n Item) (cnt : Int) :
    (entry.setOrIncrementGetCount cnt).1.owner = entry.owner := by
  unfold setOrIncrementGetCount
  split <;> rfl

@[simp]
theorem setOrIncrementGetCount_suspendGroup (entry : Entry n Item) (cnt : Int) :
    (entry.setOrIncrementGetCount cnt).1.suspendGroup = entry.suspendGroup := by
  unfold setOrIncrementGetCount
  split <;> rfl

@[simp]
theorem setOrIncrementGetCount_subscribers (entry : Entry n Item) (cnt : Int) :
    (entry.setOrIncrementGetCount cnt).1.subscribers = entry.subscribers := by
  unfold setOrIncrementGetCount
  split <;> rfl

/-- As long as the counter does not wrap around or run into the value which
stands for an unset count, what it records changes by the given amount. -/
theorem recorded_setOrIncrementGetCount (entry : Entry n Item) {cnt : Int}
    (lower : unsetGetCount < entry.recorded + cnt) (upper : entry.recorded + cnt ≤ intMax) :
    (entry.setOrIncrementGetCount cnt).1.recorded = entry.recorded + cnt := by
  have stays : asInt (entry.recorded + cnt) = entry.recorded + cnt :=
    asInt_of_isInt ⟨Int.le_of_lt (Int.lt_trans (by decide) lower), upper⟩
  have set : entry.recorded + cnt ≠ unsetGetCount := Ne.symm (Int.ne_of_lt lower)
  unfold recorded at stays set ⊢
  unfold setOrIncrementGetCount
  by_cases unset : entry.getCount = unsetGetCount
  · simp only [unset, if_true, zero_add] at stays set ⊢
    rw [setGetCount_getCount, stays, if_neg set]
  · simp only [unset, if_false] at stays set ⊢
    rw [setGetCount_getCount, stays, if_neg set]

theorem recorded_eq_noGetCount_iff (entry : Entry n Item) :
    entry.recorded = noGetCount ↔ entry.getCount = noGetCount := by
  unfold recorded
  split
  · rename_i unset
    rw [unset]
    decide
  · exact Iff.rfl

theorem setOrIncrementGetCount_zero (entry : Entry n Item) :
    (entry.setOrIncrementGetCount 0).1.recorded = entry.recorded := by
  unfold setOrIncrementGetCount recorded
  split
  · have zero : asInt 0 = 0 := by decide
    simp [zero, unsetGetCount]
  · rename_i set
    simp [asInt_of_isInt entry.isInt, set]

/-- Decrements stop at the value which stands for an unset count and start again
from there, so that they do not wrap around. -/
theorem decremented_of_recorded_le {entry : Entry n Item} (nonpositive : entry.recorded ≤ 0)
    (counted : entry.getCount ≠ noGetCount) :
    (entry.setOrIncrementGetCount (-1)).1.recorded ≤ 0 ∧
      (entry.setOrIncrementGetCount (-1)).1.getCount ≠ noGetCount := by
  have minusOne : asInt (-1) = -1 := by decide
  have bounds := entry.isInt
  unfold recorded at nonpositive
  unfold setOrIncrementGetCount recorded
  split
  · simp [minusOne, unsetGetCount, noGetCount]
  · rename_i set
    rw [if_neg set] at nonpositive
    have stays : asInt (entry.getCount + -1) = entry.getCount + -1 :=
      asInt_of_isInt (by unfold noGetCount intMax at *; omega)
    simp only [setGetCount_getCount, stays]
    unfold noGetCount intMax at *
    unfold unsetGetCount at *
    split <;> omega

theorem setOrIncrementGetCount_snd_eq_zero_iff (entry : Entry n Item) :
    (entry.setOrIncrementGetCount (-1)).2 = 0 ↔ entry.recorded = 1 := by
  have bounds := entry.isInt
  unfold setOrIncrementGetCount recorded
  split
  · simp [unsetGetCount]
  · unfold noGetCount intMax at bounds
    by_cases first : entry.getCount = noGetCount
    · have wrapped : asInt (noGetCount + -1) ≠ 0 ∧ noGetCount ≠ 1 := by decide
      rw [first]
      exact iff_of_false wrapped.1 wrapped.2
    · have stays : asInt (entry.getCount + -1) = entry.getCount + -1 :=
        asInt_of_isInt (by unfold noGetCount intMax at *; omega)
      simp only [stays]
      omega

end Entry

/-- `hash_item_table::put_item`.  The result tells whether the item was
inserted; an entry which already has an item is left alone. -/
def putItem (entry : Option (Entry n Item)) (item : Item) (getcount : Int) (owner : Fin n) :
    Entry n Item × Bool :=
  let found := entry.getD .placeholder
  match found.item with
  | some _ => (found, false)
  | none =>
      let counted :=
        if getcount ≠ noGetCount then (found.setOrIncrementGetCount getcount).1
        else found.setGetCount noGetCount
      ({ counted with item := some item, owner := some owner }, true)

theorem putItem_of_present {entry : Option (Entry n Item)} (item : Item) (getcount : Int)
    (owner : Fin n) (present : (entry.getD .placeholder).item ≠ none) :
    putItem entry item getcount owner = (entry.getD .placeholder, false) := by
  unfold putItem
  cases found : (entry.getD .placeholder).item with
  | none => exact absurd found present
  | some old => simp only [found]

/-- An inserted item keeps the suspend group and the subscribers, and the
get-count is added to what the placeholder recorded. -/
theorem putItem_of_absent {entry : Option (Entry n Item)} (item : Item) (getcount : Int)
    (owner : Fin n) (absent : (entry.getD .placeholder).item = none) :
    ∃ new : Entry n Item, putItem entry item getcount owner = (new, true) ∧
      new.item = some item ∧ new.owner = some owner ∧
      new.subscribers = (entry.getD .placeholder).subscribers ∧
      new.getCount = if getcount = noGetCount then noGetCount else
        ((entry.getD .placeholder).setOrIncrementGetCount getcount).1.getCount := by
  unfold putItem
  simp only [absent]
  refine ⟨_, rfl, rfl, rfl, ?_, ?_⟩
  · by_cases uncounted : getcount = noGetCount <;> simp [uncounted]
  · by_cases uncounted : getcount = noGetCount <;> simp [uncounted]

/-- One process, or one of the special values of `consumed_on`. -/
inductive Consumer (n : Nat) where
  | pid (process : Fin n)
  | unknown
  | here
  | all
  | allOthers
  deriving DecidableEq

/-- `consumed_on` returns one value or a vector of values. -/
inductive Consumers (n : Nat) where
  | single (consumer : Consumer n)
  | vector (consumers : List (Consumer n))
  deriving DecidableEq

inductive Producer (n : Nat) where
  | pid (process : Fin n)
  | unknown
  | here
  deriving DecidableEq

def consumersUnspecified : Consumers n → Bool
  | .single consumer => consumer == .unknown
  | .vector [] => true
  | .vector (consumer :: _) => consumer == .unknown

def amOnlyConsumer (pid : Fin n) : Consumers n → Bool
  | .single consumer => consumer == .pid pid || consumer == .here
  | .vector [consumer] => consumer == .pid pid || consumer == .here
  | .vector _ => false

/-- The answers of the item tuner, and `CNC_ENABLE_GC`, which is positive if
distributed garbage collection is enabled. -/
structure Tuner (n : Nat) (Tag : Type u) where
  consumedOn : Tag → Consumers n
  producedOn : Fin n → Tag → Producer n
  getCount : Tag → Int
  getCount_le : ∀ tag, getCount tag ≤ intMax
  enableGC : Nat
  enableGC_pos : 0 < enableGC

end CnC.Item
