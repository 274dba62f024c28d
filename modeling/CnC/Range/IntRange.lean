import CnC.Range.Strided

/-!
# Ranges of 32-bit integers

The operations of a range with a stride, when the values are of type `int`.  An operation has no
result if one of its additions or subtractions overflows.
-/

namespace CnC.Range

/-- The values of an `int`. -/
def InInt (x : Int) : Prop :=
  -2 ^ 31 ≤ x ∧ x < 2 ^ 31

instance (x : Int) : Decidable (InInt x) :=
  inferInstanceAs (Decidable (_ ∧ _))

/-- A signed overflow has no result. -/
def int (x : Int) : Option Int :=
  if InInt x then some x else none

structure IntRange where
  start : Int
  last : Int
  step : Int
  size : Int
  stepPos : 0 < step

namespace IntRange

/-- The loop of `init_size`. -/
def initSize {step : Int} (stepPos : 0 < step) (v last size : Int) : Option Int :=
  if v < last then
    if InInt (size + 1) ∧ InInt (v + step) then initSize stepPos (v + step) last (size + 1)
    else none
  else some size
termination_by (last - v).toNat

def construct (start last step : Int) (stepPos : 0 < step) : Option IntRange :=
  (initSize stepPos start last 0).map fun size => ⟨start, last, step, size, stepPos⟩

def isDivisible (r : IntRange) : Option Bool :=
  (int (r.start + r.step)).map fun next => decide (next < r.last)

def climb {step : Int} (stepPos : 0 < step) (tmp m : Int) : Option Int :=
  if tmp < m then
    if InInt (tmp + step) then climb stepPos (tmp + step) m else none
  else some tmp
termination_by (m - tmp).toNat

def split (r : IntRange) : Option (IntRange × IntRange) := do
  let length ← int (r.last - r.start)
  let m ← int (r.start + length.tdiv 2)
  let tmp ← int (r.start + r.step)
  let m ← climb r.stepPos tmp m
  let new ← construct m r.last r.step r.stepPos
  let left ← construct r.start m r.step r.stepPos
  some (left, new)

/-- The values of the iterators from one with the given value up to `end()`, which are visited by
`const_iterator::operator++`. -/
def iterate (r : IntRange) (val : Int) : Option (List Int) :=
  if val = r.last then some []
  else if InInt (val + r.step) then
    (r.iterate (if val + r.step > r.last then r.last else val + r.step)).map (val :: ·)
  else none
termination_by (r.last - val).natAbs
decreasing_by
  have := r.stepPos
  split <;> omega

/-- The values from `begin()` to `end()`. -/
def elements (r : IntRange) : Option (List Int) :=
  r.iterate r.start

inductive Part (r : IntRange) : IntRange → Prop
  | whole : Part r r
  | left {p left new} : Part r p → p.isDivisible = some true → p.split = some (left, new) →
      Part r left
  | new {p left new} : Part r p → p.isDivisible = some true → p.split = some (left, new) →
      Part r new

/-- The quotient, rounded up. -/
def count (start last step : Int) : Int :=
  (last - start + step - 1) / step

/-- The operations of a range have the right results. -/
structure Sound (r : IntRange) : Prop where
  isDivisible : ∃ divisible, r.isDivisible = some divisible
  split : r.isDivisible = some true → ∃ parts, r.split = some parts
  size : r.size = count r.start r.last r.step
  elements : r.elements =
    some ((List.range (count r.start r.last r.step).toNat).map fun (k : Nat) => r.start + r.step * k)

theorem initSize_eq_count {step : Int} (stepPos : 0 < step) {start last : Int}
    (nonempty : start < last) : (Range.initSize stepPos start last : Int) = count start last step := by
  have nonneg : 0 ≤ count start last step :=
    Int.ediv_nonneg (by omega) stepPos.le
  have isNat : Range.initSize stepPos start last = (count start last step).toNat := by
    refine eq_of_forall_lt_iff fun k => ?_
    rw [StridedRange.lt_initSize_iff, Int.lt_toNat, count, Int.lt_iff_add_one_le, Int.lt_iff_add_one_le,
      Int.le_ediv_iff_mul_le stepPos, add_mul, one_mul, mul_comm (k : Int) step]
    omega
  rw [isNat, Int.toNat_of_nonneg nonneg]

theorem initSize_eq {step : Int} (stepPos : 0 < step) (v last size : Int) (positive : 0 ≤ size)
    (isInt : InInt size) (vInt : InInt v) :
    initSize stepPos v last size =
      if size + Range.initSize stepPos v last < 2 ^ 31 ∧
          v + step * Range.initSize stepPos v last < 2 ^ 31 then
        some (size + Range.initSize stepPos v last)
      else none := by
  induction v using Range.initSize.induct stepPos last generalizing size with
  | case1 v inside inductionHypothesis =>
      have isCount : Range.initSize stepPos v last = Range.initSize stepPos (v + step) last + 1 := by
        rw [Range.initSize, if_pos inside]
      have more := mul_nonneg stepPos.le
        (Int.natCast_nonneg (Range.initSize stepPos (v + step) last))
      rw [initSize, if_pos inside, isCount]
      push_cast
      unfold InInt at *
      by_cases fits : (-2 ^ 31 ≤ size + 1 ∧ size + 1 < 2 ^ 31) ∧
          -2 ^ 31 ≤ v + step ∧ v + step < 2 ^ 31
      · rw [if_pos fits, inductionHypothesis (size + 1) (by omega) fits.1 fits.2]
        ring_nf
      · rw [if_neg fits, if_neg]
        rw [mul_add, mul_one]
        omega
  | case2 v outside =>
      have isCount : Range.initSize stepPos v last = 0 := by
        rw [Range.initSize, if_neg outside]
      rw [initSize, if_neg outside, isCount, if_pos]
      · simp
      · unfold InInt at *
        simp only [Nat.cast_zero, add_zero, mul_zero]
        exact ⟨isInt.2, vInt.2⟩

theorem construct_eq {step : Int} (stepPos : 0 < step) {start : Int} (last : Int)
    (startInt : InInt start) :
    construct start last step stepPos =
      if (Range.initSize stepPos start last : Int) < 2 ^ 31 ∧
          start + step * Range.initSize stepPos start last < 2 ^ 31 then
        some ⟨start, last, step, Range.initSize stepPos start last, stepPos⟩
      else none := by
  rw [construct, initSize_eq stepPos start last 0 le_rfl (by decide) startInt]
  simp only [zero_add]
  split <;> rfl

/-- The range without the bounds of an `int`. -/
def toRange (p : IntRange) : StridedRange :=
  .make p.start p.last p.step p.stepPos

def ofRange (r : StridedRange) : IntRange :=
  ⟨r.start, r.last, r.step, r.size, r.stepPos⟩

/-- Every value is an `int`, and so is the one after the last element.  If the range is divisible,
the difference of its ends is an `int`. -/
structure Fits (p : IntRange) : Prop where
  nonempty : p.start < p.last
  startInt : InInt p.start
  lastInt : InInt p.last
  stepInt : InInt p.step
  size : p.size = p.toRange.size
  sizeInt : p.size < 2 ^ 31
  after : p.start + p.step * p.size < 2 ^ 31
  length : p.start + p.step < p.last → p.last - p.start < 2 ^ 31

variable {p : IntRange}

theorem climb_eq {step : Int} (stepPos : 0 < step) (tmp m : Int) (tmpInt : InInt tmp)
    (bound : Range.StridedRange.climb stepPos tmp m < 2 ^ 31) :
    climb stepPos tmp m = some (Range.StridedRange.climb stepPos tmp m) := by
  induction tmp using StridedRange.climb.induct stepPos m with
  | case1 tmp below inductionHypothesis =>
      rw [StridedRange.climb, if_pos below] at bound ⊢
      obtain ⟨k, isValue, -⟩ := StridedRange.climb_spec stepPos (tmp + step) m
      have := mul_nonneg stepPos.le (Int.natCast_nonneg k)
      have nextInt : InInt (tmp + step) := by
        unfold InInt at *
        omega
      rw [climb, if_pos below, if_pos nextInt]
      exact inductionHypothesis nextInt bound
  | case2 tmp above =>
      rw [climb, if_neg above, StridedRange.climb, if_neg above]

theorem iterate_eq (p : IntRange) (val : Int) (inside : val ≤ p.last) (valInt : InInt val)
    (after : val + p.step * Range.initSize p.stepPos val p.last < 2 ^ 31) :
    p.iterate val = some (p.toRange.iterate val) := by
  induction val using StridedRange.iterate.induct p.toRange with
  | case1 => simp [iterate, StridedRange.iterate, toRange]
  | case2 val different inductionHypothesis =>
      have below : val < p.last := lt_of_le_of_ne inside different
      have isCount : Range.initSize p.stepPos val p.last =
          Range.initSize p.stepPos (val + p.step) p.last + 1 := by
        rw [Range.initSize, if_pos below]
      have more := mul_nonneg p.stepPos.le
        (Int.natCast_nonneg (Range.initSize p.stepPos (val + p.step) p.last))
      rw [isCount] at after
      push_cast at after
      rw [mul_add, mul_one] at after
      have positive := p.stepPos
      have nextInt : InInt (val + p.step) := by
        unfold InInt at *
        omega
      have isNext : p.toRange.next val =
          if val + p.step > p.last then p.last else val + p.step := rfl
      have notLast : ¬ val = p.last := different
      rw [iterate, if_neg notLast, if_pos nextInt, StridedRange.iterate, if_neg different,
        ← isNext, inductionHypothesis]
      · rfl
      · rw [isNext]
        split <;> omega
      · rw [isNext]
        split
        · unfold InInt at *
          omega
        · exact nextInt
      · rw [isNext]
        split
        · rename_i clamped
          have none : Range.initSize p.stepPos p.last p.last = 0 := by
            rw [Range.initSize, if_neg (lt_irrefl _)]
          rw [none]
          simp only [Nat.cast_zero, mul_zero, add_zero]
          omega
        · omega

theorem Fits.initSize (fits : Fits p) :
    (Range.initSize p.stepPos p.start p.last : Int) = p.size :=
  fits.size.symm

theorem isDivisible_eq (stepInt : InInt (p.start + p.step)) :
    p.isDivisible = some p.toRange.isDivisible := by
  rw [isDivisible, int, if_pos stepInt]
  rfl

theorem nextInt_of_isDivisible {divisible : Bool} (isValue : p.isDivisible = some divisible) :
    InInt (p.start + p.step) := by
  by_contra overflow
  rw [isDivisible, int, if_neg overflow] at isValue
  cases isValue

theorem lengthInt_of_split {parts : IntRange × IntRange} (isSplit : p.split = some parts) :
    InInt (p.last - p.start) := by
  by_contra overflow
  rw [split, int, if_neg overflow] at isSplit
  cases isSplit

theorem Fits.nextInt (fits : Fits p) : InInt (p.start + p.step) := by
  have := p.stepPos
  have startInt := fits.startInt
  have some_ : 0 < p.toRange.size := by
    have empty := p.toRange.size_eq_zero_iff
    have nonempty : p.toRange.start < p.toRange.last := fits.nonempty
    omega
  have one : p.step * 1 ≤ p.step * p.size :=
    mul_le_mul_of_nonneg_left (by have := fits.size; omega) p.stepPos.le
  have after := fits.after
  unfold InInt at *
  omega

theorem Fits.part (fits : Fits p) {r : StridedRange} (isStep : r.step = p.step)
    (nonempty : r.start < r.last) (above : p.start ≤ r.start) (below : r.last ≤ p.last)
    (fewer : r.size ≤ p.size) (after : r.start + p.step * r.size ≤ p.start + p.step * p.size) :
    Fits (ofRange r) := by
  have startInt := fits.startInt
  have lastInt := fits.lastInt
  have length := fits.length
  have bound := fits.after
  have sizeInt := fits.sizeInt
  have := p.stepPos
  refine ⟨nonempty, ?_, ?_, ?_, ?_, ?_, ?_, fun divisible => ?_⟩
  · change InInt r.start
    unfold InInt at *
    omega
  · change InInt r.last
    unfold InInt at *
    omega
  · change InInt r.step
    rw [isStep]
    exact fits.stepInt
  · change (r.size : Int) = Range.initSize r.stepPos r.start r.last
    rw [r.sized]
  · change (r.size : Int) < 2 ^ 31
    omega
  · change r.start + r.step * r.size < 2 ^ 31
    rw [isStep]
    omega
  · change r.start + r.step < r.last at divisible
    change r.last - r.start < 2 ^ 31
    omega

theorem Fits.split_eq (fits : Fits p) (divisible : p.isDivisible = some true) :
    p.split = some (ofRange p.toRange.split.1, ofRange p.toRange.split.2) ∧
      Fits (ofRange p.toRange.split.1) ∧ Fits (ofRange p.toRange.split.2) := by
  have isDivisible : p.toRange.isDivisible = true :=
    Option.some.inj ((isDivisible_eq fits.nextInt).symm.trans divisible)
  have inside : p.start + p.step < p.last := of_decide_eq_true isDivisible
  obtain ⟨leftPos, rightPos, sum, isPoint⟩ := p.toRange.split_size isDivisible
  obtain ⟨leftOrdered, rightOrdered⟩ := p.toRange.split_ordered isDivisible
  have isSum : (p.toRange.split.1.size : Int) + p.toRange.split.2.size = p.size := by
    rw [fits.size, ← sum]
    push_cast
    rfl
  have product : p.step * p.toRange.split.1.size + p.step * p.toRange.split.2.size =
      p.step * p.size := by
    rw [← mul_add, isSum]
  have leftMore := mul_nonneg p.stepPos.le (Int.natCast_nonneg p.toRange.split.1.size)
  have rightMore := mul_nonneg p.stepPos.le (Int.natCast_nonneg p.toRange.split.2.size)
  have point : p.toRange.splitPoint = p.start + p.step * p.toRange.split.1.size := isPoint
  have pointBelow : p.toRange.splitPoint < p.last := rightOrdered
  have sizeInt := fits.sizeInt
  have after := fits.after
  have startInt := fits.startInt
  have lastInt := fits.lastInt
  have length := fits.length inside
  have positive := p.stepPos
  have pointInt : InInt p.toRange.splitPoint := by
    unfold InInt at *
    omega
  have half : 0 ≤ (p.last - p.start).tdiv 2 ∧ (p.last - p.start).tdiv 2 ≤ p.last - p.start := by
    rw [Int.tdiv_eq_ediv_of_nonneg (by omega)]
    omega
  have lengthInt : InInt (p.last - p.start) := by
    unfold InInt
    omega
  have middleInt : InInt (p.start + (p.last - p.start).tdiv 2) := by
    unfold InInt at *
    omega
  refine ⟨?_, fits.part rfl leftOrdered le_rfl pointBelow.le (by omega) ?_,
    fits.part rfl rightOrdered ?_ le_rfl (by omega) ?_⟩
  · have climbed : climb p.stepPos (p.start + p.step) (p.start + (p.last - p.start).tdiv 2) =
        some p.toRange.splitPoint :=
      climb_eq p.stepPos _ _ fits.nextInt pointInt.2
    have new : construct p.toRange.splitPoint p.last p.step p.stepPos =
        some (ofRange p.toRange.split.2) := by
      rw [construct_eq p.stepPos p.last pointInt]
      refine if_pos ⟨?_, ?_⟩
      · change (p.toRange.split.2.size : Int) < 2 ^ 31
        omega
      · change p.toRange.splitPoint + p.step * (p.toRange.split.2.size : Int) < 2 ^ 31
        omega
    have left : construct p.start p.toRange.splitPoint p.step p.stepPos =
        some (ofRange p.toRange.split.1) := by
      rw [construct_eq p.stepPos _ startInt]
      refine if_pos ⟨?_, ?_⟩
      · change (p.toRange.split.1.size : Int) < 2 ^ 31
        omega
      · change p.start + p.step * (p.toRange.split.1.size : Int) < 2 ^ 31
        omega
    simp only [split, int, if_pos lengthInt, if_pos middleInt, if_pos fits.nextInt, climbed, new,
      left, Option.bind_eq_bind, Option.bind_some]
  · change p.start + p.step * (p.toRange.split.1.size : Int) ≤ _
    omega
  · change p.start ≤ p.toRange.splitPoint
    omega
  · change p.toRange.splitPoint + p.step * (p.toRange.split.2.size : Int) ≤ _
    omega

theorem Fits.sound (fits : Fits p) : Sound p := by
  refine ⟨⟨_, isDivisible_eq fits.nextInt⟩, fun divisible => ⟨_, (fits.split_eq divisible).1⟩, ?_, ?_⟩
  · rw [← fits.initSize, initSize_eq_count p.stepPos fits.nonempty]
  · have isCount : (count p.start p.last p.step).toNat = p.toRange.size := by
      rw [← initSize_eq_count p.stepPos fits.nonempty, Int.toNat_natCast]
      rfl
    have ordered : p.toRange.start ≤ p.toRange.last := fits.nonempty.le
    rw [elements, p.iterate_eq p.start fits.nonempty.le fits.startInt
      (by rw [fits.initSize]; exact fits.after), isCount]
    exact congrArg some (p.toRange.elements_eq ordered)

theorem Fits.of_part {r : IntRange} (fits : Fits r) (part : Part r p) : Fits p := by
  induction part with
  | whole => exact fits
  | left _ divisible split inductionHypothesis =>
      obtain ⟨isSplit, left, -⟩ := inductionHypothesis.split_eq divisible
      rw [isSplit] at split
      cases split
      exact left
  | new _ divisible split inductionHypothesis =>
      obtain ⟨isSplit, -, new⟩ := inductionHypothesis.split_eq divisible
      rw [isSplit] at split
      cases split
      exact new

/-- The operations of a range and of all its parts are safe exactly if the value after the last
element is an `int`, and so is the difference of the ends if the range is divisible. -/
theorem int_range_iff (start last step : Int) (stepPos : 0 < step) (nonempty : start < last)
    (startInt : InInt start) (lastInt : InInt last) (stepInt : InInt step)
    (countInt : InInt (count start last step)) :
    (∃ r, construct start last step stepPos = some r ∧ ∀ p, Part r p → Sound p) ↔
      start + step * count start last step < 2 ^ 31 ∧
        (start + step < last → last - start < 2 ^ 31) := by
  have isCount := initSize_eq_count stepPos nonempty
  rw [construct_eq stepPos last startInt, isCount]
  constructor
  · rintro ⟨r, constructed, sound⟩
    split at constructed
    · rename_i bounds
      cases constructed
      refine ⟨bounds.2, fun divisible => ?_⟩
      have whole := sound _ .whole
      have isDivisible : IntRange.isDivisible ⟨start, last, step, count start last step, stepPos⟩ =
          some true := by
        obtain ⟨value, isValue⟩ := whole.isDivisible
        rw [isDivisible_eq (nextInt_of_isDivisible isValue)]
        exact congrArg some (decide_eq_true divisible)
      obtain ⟨parts, isSplit⟩ := whole.split isDivisible
      exact (lengthInt_of_split isSplit).2
    · cases constructed
  · rintro ⟨after, length⟩
    refine ⟨_, if_pos ⟨countInt.2, after⟩, fun p part => ?_⟩
    have fits : Fits ⟨start, last, step, count start last step, stepPos⟩ :=
      ⟨nonempty, startInt, lastInt, stepInt, isCount.symm, countInt.2, after, length⟩
    exact (fits.of_part part).sound

/-- The range of all values from 1 to 9 in steps of 3. -/
theorem int_range_nine :
    ∃ r, construct 1 10 3 (by decide) = some r ∧ ∀ p, Part r p → Sound p :=
  (int_range_iff 1 10 3 (by decide) (by decide) (by decide) (by decide) (by decide)
    (by decide)).mpr ⟨by decide, by decide⟩

/-- The loop which counts the elements adds 2 to 2^31 - 2. -/
theorem int_range_fails :
    ¬ ∃ r, construct 2147483644 2147483647 2 (by decide) = some r ∧ ∀ p, Part r p → Sound p := by
  rintro ⟨r, constructed, -⟩
  rw [construct_eq _ _ (by decide), initSize_eq_count _ (by decide), if_neg (by decide)] at constructed
  cases constructed

end IntRange

end CnC.Range
