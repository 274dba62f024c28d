import Mathlib.Algebra.BigOperators.Group.Finset.Basic
import Mathlib.Algebra.BigOperators.Group.List.Basic
import Mathlib.Tactic.Common

/-!
# Values in slots of their own

Every key has at most one slot, which holds a default value when it is new.  The values of all
slots are combined by an operation which is associative and commutative.  The keys whose values
do not count yet can be left out.
-/

universe u v

/-- The slots, in the order in which they were made. -/
abbrev Combinable (Key : Type u) (Value : Type v) := List (Key × Value)

namespace Combinable

variable {Key : Type u} {Value : Type v}

def keys (slots : Combinable Key Value) : List Key :=
  slots.map Prod.fst

def combine [Mul Value] [Inhabited Value] : Combinable Key Value → Value
  | [] => default
  | first :: rest => rest.foldl (fun value slot => value * slot.2) first.2

def total [CommMonoid Value] (counts : Key → Bool) (slots : Combinable Key Value) : Value :=
  (slots.map fun slot => if counts slot.1 then slot.2 else 1).prod

section Slots

variable [DecidableEq Key]

def make [Inhabited Value] (slots : Combinable Key Value) (key : Key) : Combinable Key Value :=
  if key ∈ slots.keys then slots else slots ++ [(key, default)]

def get (slots : Combinable Key Value) (key : Key) : Option Value :=
  (slots.find? fun slot => slot.1 = key).map Prod.snd

def set (slots : Combinable Key Value) (key : Key) (value : Value) : Combinable Key Value :=
  slots.map fun slot => if slot.1 = key then (key, value) else slot

variable {slots : Combinable Key Value} {key : Key} {value : Value}

theorem mem_keys_make [Inhabited Value] (slots : Combinable Key Value) (key : Key) :
    key ∈ (slots.make key).keys := by
  by_cases isKey : key ∈ slots.keys
  · rwa [make, if_pos isKey]
  · rw [make, if_neg isKey]
    simp [keys]

theorem mem_keys_make_of_mem [Inhabited Value] {other : Key} (isKey : other ∈ slots.keys) :
    other ∈ (slots.make key).keys := by
  rw [make]
  split
  · exact isKey
  · rw [keys, List.map_append]
    exact List.mem_append_left _ isKey

theorem nodup_make [Inhabited Value] (nodup : slots.keys.Nodup) (key : Key) :
    (slots.make key).keys.Nodup := by
  by_cases isKey : key ∈ slots.keys
  · rwa [make, if_pos isKey]
  · rw [make, if_neg isKey, keys, List.map_append, List.nodup_append]
    refine ⟨nodup, by simp, fun other isOther new isNew => ?_⟩
    simp only [List.map_cons, List.map_nil, List.mem_singleton] at isNew
    rintro rfl
    exact isKey (isNew ▸ isOther)

theorem keys_set (slots : Combinable Key Value) (key : Key) (value : Value) :
    (slots.set key value).keys = slots.keys := by
  rw [keys, set, List.map_map, keys]
  refine List.map_congr_left fun slot _ => ?_
  simp only [Function.comp_apply]
  split
  · rename_i same
    exact same.symm
  · rfl

theorem exists_get (isKey : key ∈ slots.keys) : ∃ value, slots.get key = some value := by
  obtain ⟨slot, isSlot, same⟩ := List.mem_map.mp isKey
  have isFound : (slots.find? fun slot => slot.1 = key).isSome :=
    List.find?_isSome.mpr ⟨slot, isSlot, by simpa using same⟩
  obtain ⟨found, isFound⟩ := Option.isSome_iff_exists.mp isFound
  exact ⟨found.2, by rw [get, isFound]; rfl⟩

theorem get_set (isKey : key ∈ slots.keys) (value : Value) :
    (slots.set key value).get key = some value := by
  induction slots with
  | nil => simp [keys] at isKey
  | cons slot slots inductionHypothesis =>
      by_cases same : slot.1 = key
      · simp [get, set, same]
      · have isLater : key ∈ keys slots := by
          simpa [keys, Ne.symm same] using isKey
        have later := inductionHypothesis isLater
        simpa [get, set, same] using later

end Slots

variable [CommMonoid Value]

theorem combine_eq [Inhabited Value] {slots : Combinable Key Value} (nonempty : slots ≠ []) :
    slots.combine = slots.total fun _ => true := by
  cases slots with
  | nil => exact absurd rfl nonempty
  | cons first rest =>
      have all : ∀ value : Value, rest.foldl (fun value slot => value * slot.2) value =
          value * (rest.map Prod.snd).prod := by
        induction rest with
        | nil => simp
        | cons second rest inductionHypothesis =>
            intro value
            rw [List.foldl_cons, inductionHypothesis (by simp), List.map_cons, List.prod_cons,
              mul_assoc]
      rw [combine, all]
      simp [total]

/-- It does not matter that there is no slot if a new slot holds the identity. -/
theorem combine_eq_of_filled [Inhabited Value] {slots : Combinable Key Value}
    (filled : slots ≠ [] ∨ (default : Value) = 1) :
    slots.combine = slots.total fun _ => true := by
  cases slots with
  | nil => exact filled.resolve_left (absurd rfl)
  | cons first rest => exact combine_eq (List.cons_ne_nil first rest)

theorem total_congr {counts counts' : Key → Bool} {slots : Combinable Key Value}
    (same : ∀ key ∈ slots.keys, counts key = counts' key) :
    slots.total counts = slots.total counts' := by
  rw [total, total]
  congr 1
  refine List.map_congr_left fun slot isSlot => ?_
  rw [same slot.1 (List.mem_map_of_mem isSlot)]

section Slots

variable [DecidableEq Key] {counts : Key → Bool} {slots : Combinable Key Value} {key : Key}

theorem total_make [Inhabited Value] (notYet : key ∉ slots.keys → counts key = false) :
    (slots.make key).total counts = slots.total counts := by
  by_cases isKey : key ∈ slots.keys
  · rw [make, if_pos isKey]
  · rw [make, if_neg isKey, total, List.map_append, List.prod_append]
    simp [notYet isKey, total]

theorem total_set_of_not {value : Value} (notYet : counts key = false) :
    (slots.set key value).total counts = slots.total counts := by
  rw [total, set, List.map_map, total]
  congr 1
  refine List.map_congr_left fun slot _ => ?_
  simp only [Function.comp_apply]
  by_cases same : slot.1 = key
  · rw [if_pos same]
    simp [notYet, same]
  · rw [if_neg same]

theorem total_eq_mul {old : Value} (nodup : slots.keys.Nodup) (isOld : slots.get key = some old) :
    slots.total counts =
      (if counts key then old else 1) *
        slots.total (fun other => counts other && decide (other ≠ key)) := by
  induction slots with
  | nil => simp [get] at isOld
  | cons slot slots inductionHypothesis =>
      rw [keys, List.map_cons, List.nodup_cons] at nodup
      by_cases same : slot.1 = key
      · have isFirst : slot.2 = old := by simpa [get, same] using isOld
        have others : total counts slots =
            total (fun other => counts other && decide (other ≠ key)) slots := by
          refine total_congr fun other isOther => ?_
          have different : other ≠ key := by
            rintro rfl
            exact nodup.1 (same ▸ isOther)
          simp [different]
        rw [total, List.map_cons, List.prod_cons, same, isFirst]
        change _ * total counts slots = _
        rw [others]
        simp [total, same]
      · have isLater : get slots key = some old := by simpa [get, same] using isOld
        have rest := inductionHypothesis nodup.2 isLater
        rw [total, List.map_cons, List.prod_cons]
        change _ * total counts slots = _
        rw [rest, mul_left_comm]
        simp [total, same]

theorem total_set {old value : Value} (nodup : slots.keys.Nodup)
    (isOld : slots.get key = some old) (isKey : key ∈ slots.keys) :
    ∃ others, slots.total counts = (if counts key then old else 1) * others ∧
      ∀ counts' : Key → Bool, (∀ other, other ≠ key → counts' other = counts other) →
        (slots.set key value).total counts' = (if counts' key then value else 1) * others := by
  refine ⟨_, total_eq_mul nodup isOld, fun counts' same => ?_⟩
  have nodupSet : (slots.set key value).keys.Nodup := by rwa [keys_set]
  rw [total_eq_mul nodupSet (get_set isKey value), total_set_of_not (by simp)]
  congr 1
  refine total_congr fun other _ => ?_
  by_cases isSame : other = key
  · simp [isSame]
  · rw [same other isSame]

/-- A value is added in the slot of a key, which is new if the key has none. -/
theorem total_add [Inhabited Value] (nodup : slots.keys.Nodup) (key : Key) (value : Value) :
    ((slots.make key).set key ((slots.get key).getD 1 * value)).total (fun _ => true) =
      slots.total (fun _ => true) * value := by
  by_cases isKey : key ∈ slots.keys
  · obtain ⟨old, isOld⟩ := exists_get isKey
    obtain ⟨others, before, after⟩ :=
      @total_set _ _ _ _ (fun _ => true) slots key old (old * value) nodup isOld isKey
    rw [make, if_pos isKey, isOld, Option.getD_some, after _ fun _ _ => rfl, before]
    exact mul_right_comm old value others
  · have unset : slots.get key = none := by
      rw [get, List.find?_eq_none.mpr, Option.map_none]
      intro slot isSlot same
      exact isKey (List.mem_map.mpr ⟨slot, isSlot, by simpa using same⟩)
    have others (new : Value) : slots.set key new = slots := by
      refine (List.map_congr_left fun slot isSlot => if_neg fun same => ?_).trans (List.map_id _)
      exact isKey (List.mem_map.mpr ⟨slot, isSlot, same⟩)
    rw [make, if_neg isKey, unset, Option.getD_none, one_mul, total, set, List.map_append,
      List.map_append, List.prod_append]
    change (total (fun _ => true) (slots.set key value)) * _ = _
    rw [others]
    simp

end Slots

theorem prod_update {Index : Type*} [Fintype Index] [DecidableEq Index] {State : Type*}
    (measure : Index → State → Value) (states : Index → State) (index : Index) :
    ∃ others, ∏ other, measure other (states other) = measure index (states index) * others ∧
      ∀ state, ∏ other, measure other (Function.update states index state other) =
        measure index state * others := by
  refine ⟨∏ other ∈ Finset.univ.erase index, measure other (states other), ?_, fun state => ?_⟩
  · rw [Finset.mul_prod_erase _ (fun other => measure other (states other))
      (Finset.mem_univ index)]
  · rw [← Finset.mul_prod_erase _ _ (Finset.mem_univ index), Function.update_self]
    congr 1
    refine Finset.prod_congr rfl fun other isOther => ?_
    rw [Function.update_of_ne (Finset.ne_of_mem_erase isOther)]

end Combinable
