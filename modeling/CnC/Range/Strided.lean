import Mathlib.Data.List.Range
import Mathlib.Tactic

/-!
# Ranges with a stride

A range holds the values from its start up to its end in steps, and its number of
elements, which is counted by a loop of its own.  Iterators compare their values only,
and stop at the end of the range, which they do not exceed.
-/

namespace CnC.Range

/-- The loop of `init_size`. -/
def initSize {step : Int} (stepPos : 0 < step) (v last : Int) : Nat :=
  if v < last then initSize stepPos (v + step) last + 1 else 0
termination_by (last - v).toNat

structure StridedRange where
  start : Int
  last : Int
  step : Int
  size : Nat
  stepPos : 0 < step
  sized : size = initSize stepPos start last

namespace StridedRange

def make (start last step : Int) (stepPos : 0 < step) : StridedRange :=
  ⟨start, last, step, initSize stepPos start last, stepPos, rfl⟩

def isDivisible (r : StridedRange) : Bool :=
  r.start + r.step < r.last

def climb {step : Int} (stepPos : 0 < step) (tmp m : Int) : Int :=
  if tmp < m then climb stepPos (tmp + step) m else tmp
termination_by (m - tmp).toNat

def splitPoint (r : StridedRange) : Int :=
  climb r.stepPos (r.start + r.step) (r.start + (r.last - r.start).tdiv 2)

/-- The splitting constructor: what is left of the range, and the new range. -/
def split (r : StridedRange) : StridedRange × StridedRange :=
  (make r.start r.splitPoint r.step r.stepPos, make r.splitPoint r.last r.step r.stepPos)

/-- `const_iterator::operator++`. -/
def next (r : StridedRange) (val : Int) : Int :=
  if val + r.step > r.last then r.last else val + r.step

/-- The values of the iterators from one with the given value up to `end()`. -/
def iterate (r : StridedRange) (val : Int) : List Int :=
  if val = r.last then [] else val :: r.iterate (r.next val)
termination_by (r.last - val).natAbs
decreasing_by
  have := r.stepPos
  simp only [next]
  split <;> omega

/-- The values from `begin()` to `end()`. -/
def elements (r : StridedRange) : List Int :=
  r.iterate r.start

theorem lt_initSize_iff {step : Int} (stepPos : 0 < step) (v last : Int) (k : Nat) :
    k < initSize stepPos v last ↔ v + step * k < last := by
  induction v using initSize.induct stepPos last generalizing k with
  | case1 v inside inductionHypothesis =>
      rw [initSize, if_pos inside]
      cases k with
      | zero => simpa using inside
      | succ k =>
          rw [Nat.succ_lt_succ_iff, inductionHypothesis k]
          push_cast
          constructor <;> intro below <;> linarith
  | case2 v outside =>
      rw [initSize, if_neg outside]
      have := mul_nonneg stepPos.le (Int.natCast_nonneg k)
      constructor
      · omega
      · intro below
        linarith

theorem lt_size_iff (r : StridedRange) (k : Nat) : k < r.size ↔ r.start + r.step * k < r.last := by
  rw [r.sized]
  exact lt_initSize_iff r.stepPos r.start r.last k

theorem size_eq_zero_iff (r : StridedRange) : r.size = 0 ↔ r.last ≤ r.start := by
  have first := r.lt_size_iff 0
  simp only [Nat.cast_zero, mul_zero, add_zero] at first
  omega

theorem isDivisible_iff (r : StridedRange) : r.isDivisible = true ↔ 1 < r.size := by
  rw [r.lt_size_iff 1]
  simp [isDivisible]

/-- The iterators visit as many values as the size tells, unless the interval is
inverted. -/
theorem iterate_eq (r : StridedRange) (val : Int) (inside : val ≤ r.last) :
    r.iterate val =
      (List.range (initSize r.stepPos val r.last)).map fun (k : Nat) => val + r.step * k := by
  induction val using iterate.induct r with
  | case1 => simp [iterate, initSize]
  | case2 val different inductionHypothesis =>
      have below : val < r.last := lt_of_le_of_ne inside different
      rw [iterate, if_neg different, initSize, if_pos below, List.range_succ_eq_map, List.map_cons,
        List.map_map]
      congr 1
      · simp
      · by_cases clamped : val + r.step > r.last
        · have nextIsLast : r.next val = r.last := if_pos clamped
          have noMore : initSize r.stepPos (val + r.step) r.last = 0 := by
            rw [initSize, if_neg (by omega)]
          rw [nextIsLast, noMore, iterate, if_pos rfl]
          rfl
        · have isNext : r.next val = val + r.step := if_neg clamped
          rw [isNext] at inductionHypothesis ⊢
          rw [inductionHypothesis (by omega)]
          refine List.map_congr_left fun k _ => ?_
          simp only [Function.comp_apply]
          push_cast
          ring

theorem elements_eq (r : StridedRange) (ordered : r.start ≤ r.last) :
    r.elements = (List.range r.size).map fun (k : Nat) => r.start + r.step * k := by
  rw [elements, r.iterate_eq r.start ordered, r.sized]

theorem elements_of_inverted (r : StridedRange) (inverted : r.last < r.start) :
    r.elements = [r.start] := by
  have := r.stepPos
  have different : r.start ≠ r.last := by omega
  have clamped : r.next r.start = r.last := if_pos (by omega)
  rw [elements, iterate, if_neg different, clamped, iterate, if_pos rfl]

theorem length_elements (r : StridedRange) (ordered : r.start ≤ r.last) :
    r.elements.length = r.size := by
  rw [r.elements_eq ordered, List.length_map, List.length_range]

theorem climb_spec {step : Int} (stepPos : 0 < step) (tmp m : Int) :
    ∃ k : Nat, climb stepPos tmp m = tmp + step * k ∧ (k = 0 ∨ climb stepPos tmp m - step < m) := by
  induction tmp using climb.induct stepPos m with
  | case1 tmp below inductionHypothesis =>
      obtain ⟨k, isValue, least⟩ := inductionHypothesis
      rw [climb, if_pos below]
      refine ⟨k + 1, ?_, .inr ?_⟩
      · rw [isValue]
        push_cast
        ring
      · rcases least with rfl | least
        · rw [isValue]
          push_cast
          linarith
        · exact least
  | case2 tmp above =>
      rw [climb, if_neg above]
      exact ⟨0, by simp, .inl rfl⟩

theorem splitPoint_spec (r : StridedRange) (divisible : r.isDivisible = true) :
    ∃ j : Nat, 0 < j ∧ j < r.size ∧ r.splitPoint = r.start + r.step * j := by
  obtain ⟨k, isValue, least⟩ :=
    climb_spec r.stepPos (r.start + r.step) (r.start + (r.last - r.start).tdiv 2)
  have isPoint : r.splitPoint = r.start + r.step + r.step * k := isValue
  have asMultiple : r.start + r.step + r.step * k = r.start + r.step * (k + 1 : Nat) := by
    push_cast
    ring
  refine ⟨k + 1, Nat.succ_pos k, ?_, isPoint.trans asMultiple⟩
  rw [r.lt_size_iff, ← asMultiple]
  have inside : r.start + r.step < r.last := by simpa [isDivisible] using divisible
  have := r.stepPos
  by_cases first : k = 0
  · subst first
    simpa using inside
  · replace least := least.resolve_left first
    rw [← splitPoint, isPoint, Int.tdiv_eq_ediv_of_nonneg (by omega)] at least
    have oneStep : r.step * 1 ≤ r.step * k :=
      mul_le_mul_of_nonneg_left (by omega) r.stepPos.le
    omega

@[simp]
theorem make_start (start last step : Int) (stepPos : 0 < step) :
    (make start last step stepPos).start = start := rfl

@[simp]
theorem make_last (start last step : Int) (stepPos : 0 < step) :
    (make start last step stepPos).last = last := rfl

@[simp]
theorem make_step (start last step : Int) (stepPos : 0 < step) :
    (make start last step stepPos).step = step := rfl

theorem size_eq_of_lt_iff (r : StridedRange) {n : Nat}
    (bound : ∀ k : Nat, r.start + r.step * k < r.last ↔ k < n) : r.size = n :=
  eq_of_forall_lt_iff fun k => (r.lt_size_iff k).trans (bound k)

theorem split_size (r : StridedRange) (divisible : r.isDivisible = true) :
    0 < r.split.1.size ∧ 0 < r.split.2.size ∧ r.split.1.size + r.split.2.size = r.size ∧
      r.splitPoint = r.start + r.step * r.split.1.size := by
  obtain ⟨j, positive, below, isPoint⟩ := r.splitPoint_spec divisible
  have left : r.split.1.size = j := by
    refine size_eq_of_lt_iff _ fun k => ?_
    simp only [split, make_start, make_step, make_last, isPoint, add_lt_add_iff_left]
    rw [mul_lt_mul_iff_right₀ r.stepPos, Nat.cast_lt]
  have right : r.split.2.size = r.size - j := by
    refine size_eq_of_lt_iff _ fun k => ?_
    have shifted := r.lt_size_iff (k + j)
    simp only [split, make_start, make_step, make_last, isPoint]
    push_cast at shifted
    rw [show r.start + r.step * j + r.step * k = r.start + r.step * (k + j) by ring, ← shifted]
    omega
  rw [left, right]
  exact ⟨positive, by omega, by omega, isPoint⟩

theorem split_ordered (r : StridedRange) (divisible : r.isDivisible = true) :
    r.split.1.start < r.split.1.last ∧ r.split.2.start < r.split.2.last := by
  obtain ⟨left, right, -⟩ := r.split_size divisible
  have first := r.split.1.size_eq_zero_iff
  have second := r.split.2.size_eq_zero_iff
  omega

theorem split_elements (r : StridedRange) (divisible : r.isDivisible = true) :
    r.split.1.elements ++ r.split.2.elements = r.elements := by
  obtain ⟨-, -, sum, isPoint⟩ := r.split_size divisible
  obtain ⟨left, right⟩ := r.split_ordered divisible
  have inside : r.start ≤ r.last := by
    have := (r.isDivisible_iff).mp divisible
    have := r.size_eq_zero_iff
    omega
  rw [elements_eq _ left.le, elements_eq _ right.le, elements_eq _ inside, ← sum, List.range_add,
    List.map_append, List.map_map]
  congr 1
  refine List.map_congr_left fun k _ => ?_
  have isStart : r.split.2.start = r.start + r.step * r.split.1.size := isPoint
  simp only [Function.comp_apply, isStart, show r.split.2.step = r.step from rfl]
  push_cast
  ring

end StridedRange

end CnC.Range
