import CnC.Range.Strided

/-!
# The default partitioner

A range instance divides its range as long as the partitioner tells it to.  Every part
which is split off becomes an instance of its own, with a copy of the partitioner, and
is divided in turn.
-/

namespace CnC.Range

open StridedRange

/-- The template argument `grainSize`, and the members `m_grainSize` and `m_nt`. -/
structure Partitioner where
  grainSize : Int
  cached : Int
  threads : Nat
  threadsPos : 0 < threads

namespace Partitioner

def create (grainSize : Int) (threads : Nat) (threadsPos : 0 < threads) : Partitioner :=
  ⟨grainSize, grainSize, threads, threadsPos⟩

/-- `grain_size` keeps the first grain which it computes. -/
def grain (p : Partitioner) (rangeSize : Nat) : Int × Partitioner :=
  if p.grainSize ≠ 0 then (p.grainSize, p)
  else
    let computed : Int := if rangeSize > 0 then (max 1 (rangeSize / p.threads / 4) : Nat) else 1
    let p := if p.cached ≤ 0 then { p with cached := computed } else p
    (p.cached, p)

def isDivisible (p : Partitioner) (r : StridedRange) (grain : Int) : Bool :=
  (decide (p.grainSize < 0) || decide ((r.size : Int) > grain)) && r.isDivisible

/-- What is left of the range, the range for `originate_range` if there is one, and
whether the first one needs further splitting. -/
def divideAndOriginate (p : Partitioner) (r : StridedRange) :
    Partitioner × StridedRange × Option StridedRange × Bool :=
  let (grain, p) := p.grain r.size
  let (r, new) := if p.isDivisible r grain then (r.split.1, some r.split.2) else (r, none)
  (p, r, new, p.isDivisible r grain)

variable {p : Partitioner} {r : StridedRange}

theorem grainSize_grain (p : Partitioner) (n : Nat) : (p.grain n).2.grainSize = p.grainSize := by
  unfold grain
  split
  · rfl
  · simp only
    split <;> rfl

theorem grain_grain (p : Partitioner) (n m : Nat) : (p.grain n).2.grain m = p.grain n := by
  by_cases fixed : p.grainSize ≠ 0
  · have same : p.grain n = (p.grainSize, p) := if_pos fixed
    rw [same]
    exact if_pos fixed
  · by_cases unset : p.cached ≤ 0
    · have positive : ¬ (p.grain n).2.cached ≤ 0 := by
        simp only [grain, fixed, unset, if_false, if_true]
        split <;> simp
      have derived : ¬ (p.grain n).2.grainSize ≠ 0 := by rwa [grainSize_grain]
      have first : (p.grain n).1 = (p.grain n).2.cached := by
        simp only [grain, fixed, unset, if_false, if_true]
      generalize p.grain n = computed at positive derived first
      obtain ⟨value, q⟩ := computed
      simp only at positive derived first
      simp [grain, derived, positive, first]
    · have same : p.grain n = (p.cached, p) := by
        simp only [grain, fixed, unset, if_false]
      rw [same]
      simp only [grain, fixed, unset, if_false]

theorem divide_of_not (indivisible : (p.grain r.size).2.isDivisible r (p.grain r.size).1 = false) :
    p.divideAndOriginate r = ((p.grain r.size).2, r, none, false) := by
  simp [divideAndOriginate, indivisible]

theorem divide_of_divisible
    (divisible : (p.grain r.size).2.isDivisible r (p.grain r.size).1 = true) :
    p.divideAndOriginate r = ((p.grain r.size).2, r.split.1, some r.split.2,
      (p.grain r.size).2.isDivisible r.split.1 (p.grain r.size).1) := by
  simp [divideAndOriginate, divisible]

theorem range_divisible {grain : Int} (divisible : p.isDivisible r grain = true) :
    r.isDivisible = true :=
  (Bool.and_eq_true_iff.mp divisible).2

theorem divide_size_lt {q : Partitioner} {left : StridedRange} {right : Option StridedRange}
    {more : Bool} (divided : p.divideAndOriginate r = (q, left, right, more)) :
    (∀ part, right = some part → part.size < r.size) ∧ (more = true → left.size < r.size) := by
  cases divisible : (p.grain r.size).2.isDivisible r (p.grain r.size).1 with
  | true =>
      obtain ⟨leftPos, rightPos, sum, -⟩ := r.split_size (range_divisible divisible)
      rw [divide_of_divisible divisible] at divided
      cases divided
      refine ⟨?_, fun _ => by omega⟩
      rintro part ⟨⟩
      omega
  | false =>
      rw [divide_of_not divisible] at divided
      cases divided
      exact ⟨nofun, nofun⟩

end Partitioner

/-- The loop of `range_step_instance::execute`: the range which is left, and the instances
which were originated. -/
def divideLoop (p : Partitioner) (r : StridedRange) :
    StridedRange × List (Partitioner × StridedRange) :=
  match _divided : p.divideAndOriginate r with
  | (q, left, right, more) =>
      let originated := right.toList.map fun part => (q, part)
      if _again : more = true then
        let (last, others) := divideLoop q left
        (last, originated ++ others)
      else (left, originated)
termination_by r.size
decreasing_by exact (Partitioner.divide_size_lt _divided).2 _again

section Leaves

variable {p : Partitioner} {r : StridedRange}

theorem divideLoop_of_not
    (indivisible : (p.grain r.size).2.isDivisible r (p.grain r.size).1 = false) :
    divideLoop p r = (r, []) := by
  rw [divideLoop]
  split
  rename_i divided
  rw [Partitioner.divide_of_not indivisible] at divided
  cases divided
  rfl

theorem divideLoop_of_divisible
    (divisible : (p.grain r.size).2.isDivisible r (p.grain r.size).1 = true) :
    divideLoop p r = ((divideLoop (p.grain r.size).2 r.split.1).1,
      ((p.grain r.size).2, r.split.2) :: (divideLoop (p.grain r.size).2 r.split.1).2) := by
  rw [divideLoop]
  split
  rename_i divided
  rw [Partitioner.divide_of_divisible divisible] at divided
  cases divided
  split
  · rfl
  · rename_i enough
    rw [divideLoop_of_not]
    · rfl
    · rw [Partitioner.grain_grain]
      simpa using enough

theorem divideLoop_size_lt (p : Partitioner) (r : StridedRange) :
    (divideLoop p r).1.size ≤ r.size ∧ ∀ child ∈ (divideLoop p r).2, child.2.size < r.size := by
  induction size : r.size using Nat.strong_induction_on generalizing p r with
  | _ n inductionHypothesis =>
      subst size
      cases divisible : (p.grain r.size).2.isDivisible r (p.grain r.size).1 with
      | false =>
          rw [divideLoop_of_not divisible]
          exact ⟨le_rfl, nofun⟩
      | true =>
          obtain ⟨leftPos, rightPos, sum, -⟩ :=
            r.split_size (Partitioner.range_divisible divisible)
          rw [divideLoop_of_divisible divisible]
          obtain ⟨last, others⟩ := inductionHypothesis r.split.1.size (by omega)
            (p.grain r.size).2 r.split.1 rfl
          refine ⟨last.trans (by omega), fun child member => ?_⟩
          rcases List.mem_cons.mp member with rfl | member
          · simp only
            omega
          · have := others child member
            omega

/-- The ranges which are executed: the range which is left by the loop, and those of the
instances which were originated. -/
def leaves (p : Partitioner) (r : StridedRange) : List StridedRange :=
  (divideLoop p r).1 ::
    (divideLoop p r).2.attach.flatMap fun child => leaves child.1.1 child.1.2
termination_by r.size
decreasing_by exact (divideLoop_size_lt p r).2 child.1 child.2

theorem leaves_eq (p : Partitioner) (r : StridedRange) :
    leaves p r = (divideLoop p r).1 ::
      (divideLoop p r).2.flatMap fun child => leaves child.1 child.2 := by
  rw [leaves]
  congr 1
  conv_rhs => rw [← List.attach_map_subtype_val (divideLoop p r).2, List.flatMap_map]

theorem leaves_of_not
    (indivisible : (p.grain r.size).2.isDivisible r (p.grain r.size).1 = false) :
    leaves p r = [r] := by
  rw [leaves_eq, divideLoop_of_not indivisible]
  rfl

theorem leaves_of_divisible
    (divisible : (p.grain r.size).2.isDivisible r (p.grain r.size).1 = true) :
    (leaves p r).Perm
      (leaves (p.grain r.size).2 r.split.1 ++ leaves (p.grain r.size).2 r.split.2) := by
  rw [leaves_eq p r, divideLoop_of_divisible divisible, leaves_eq (p.grain r.size).2 r.split.1,
    List.flatMap_cons, List.cons_append]
  exact List.perm_append_comm.cons _

inductive Occurs (p : Partitioner) (r : StridedRange) : Partitioner → StridedRange → Prop
  | whole : Occurs p r p r
  | rest {q t} : Occurs p r q t → (q.divideAndOriginate t).2.2.1.isSome →
      Occurs p r (q.divideAndOriginate t).1 (q.divideAndOriginate t).2.1
  | part {q t new} : Occurs p r q t → (q.divideAndOriginate t).2.2.1 = some new →
      Occurs p r (q.divideAndOriginate t).1 new

theorem Occurs.ordered (ordered : r.start < r.last) {q : Partitioner} {t : StridedRange}
    (occurs : Occurs p r q t) : t.start < t.last := by
  have parts : ∀ (q : Partitioner) (t : StridedRange), (q.divideAndOriginate t).2.2.1.isSome →
      t.isDivisible = true ∧ (q.divideAndOriginate t).2.1 = t.split.1 ∧
        (q.divideAndOriginate t).2.2.1 = some t.split.2 := by
    intro q t isDivided
    cases divisible : (q.grain t.size).2.isDivisible t (q.grain t.size).1 with
    | false =>
        rw [Partitioner.divide_of_not divisible] at isDivided
        cases isDivided
    | true =>
        rw [Partitioner.divide_of_divisible divisible]
        exact ⟨Partitioner.range_divisible divisible, rfl, rfl⟩
  induction occurs with
  | whole => exact ordered
  | @rest q t _ isDivided _ =>
      obtain ⟨divisible, isLeft, -⟩ := parts q t isDivided
      rw [isLeft]
      exact (t.split_ordered divisible).1
  | @part q t new _ isNew _ =>
      obtain ⟨divisible, -, isRight⟩ := parts q t (by rw [isNew]; rfl)
      rw [isNew] at isRight
      cases isRight
      exact (t.split_ordered divisible).2

structure IsPartition (grainSize grain : Int) (r : StridedRange) (parts : List StridedRange) :
    Prop where
  sorted : parts.Pairwise fun first second => first.start < second.start
  elements : parts.flatMap StridedRange.elements = r.elements
  inside : ∀ part ∈ parts, r.start ≤ part.start ∧ part.start < r.last
  nonempty : ∀ part ∈ parts, 0 < part.size ∧ part.size = part.elements.length
  bounded : ∀ part ∈ parts, (part.size : Int) ≤ max grain 1
  single : grainSize < 0 → ∀ part ∈ parts, part.size = 1

theorem IsPartition.append {grainSize grain : Int} {left right : List StridedRange}
    (divisible : r.isDivisible = true) (first : IsPartition grainSize grain r.split.1 left)
    (second : IsPartition grainSize grain r.split.2 right) :
    IsPartition grainSize grain r (left ++ right) where
  sorted := by
    refine List.pairwise_append.mpr ⟨first.sorted, second.sorted, fun a inLeft b inRight => ?_⟩
    exact (first.inside a inLeft).2.trans_le (second.inside b inRight).1
  elements := by
    rw [List.flatMap_append, first.elements, second.elements, r.split_elements divisible]
  inside part member := by
    obtain ⟨leftOrdered, rightOrdered⟩ := r.split_ordered divisible
    have point : r.split.1.last = r.split.2.start := rfl
    have start : r.split.1.start = r.start := rfl
    have last : r.split.2.last = r.last := rfl
    rcases List.mem_append.mp member with inLeft | inRight
    · have := first.inside part inLeft
      omega
    · have := second.inside part inRight
      omega
  nonempty part member :=
    (List.mem_append.mp member).elim (first.nonempty part) (second.nonempty part)
  bounded part member :=
    (List.mem_append.mp member).elim (first.bounded part) (second.bounded part)
  single full part member :=
    (List.mem_append.mp member).elim (first.single full part) (second.single full part)

theorem IsPartition.of_not (ordered : r.start < r.last) {grain : Int}
    (indivisible : p.isDivisible r grain = false) :
    IsPartition p.grainSize grain r [r] := by
  have positive : 0 < r.size := by
    have := r.size_eq_zero_iff
    omega
  have enough : p.grainSize < 0 ∨ (r.size : Int) > grain → r.size = 1 := by
    intro tooLarge
    have notDivisible : ¬ 1 < r.size := by
      rw [← r.isDivisible_iff]
      intro isDivisible
      rw [Partitioner.isDivisible, isDivisible, Bool.and_true] at indivisible
      simp only [Bool.or_eq_false_iff, decide_eq_false_iff_not] at indivisible
      exact tooLarge.elim indivisible.1 indivisible.2
    omega
  refine ⟨by simp, by simp, ?_, ?_, ?_, ?_⟩ <;> simp only [List.mem_singleton, forall_eq]
  · exact ⟨le_rfl, ordered⟩
  · exact ⟨positive, (r.length_elements ordered.le).symm⟩
  · by_cases tooLarge : (r.size : Int) > grain
    · have := enough (.inr tooLarge)
      omega
    · omega
  · exact fun full => enough (.inl full)

theorem leaves_isPartition (p : Partitioner) (r : StridedRange) (ordered : r.start < r.last) :
    ∃ parts, parts.Perm (leaves p r) ∧
      IsPartition p.grainSize (p.grain r.size).1 r parts := by
  induction size : r.size using Nat.strong_induction_on generalizing p r with
  | _ n inductionHypothesis =>
      subst size
      have grainSize := p.grainSize_grain r.size
      cases divisible : (p.grain r.size).2.isDivisible r (p.grain r.size).1 with
      | false =>
          rw [leaves_of_not divisible]
          refine ⟨[r], .refl _, ?_⟩
          rw [← grainSize]
          exact .of_not ordered divisible
      | true =>
          have rangeDivisible := Partitioner.range_divisible divisible
          obtain ⟨leftPos, rightPos, sum, -⟩ := r.split_size rangeDivisible
          obtain ⟨leftOrdered, rightOrdered⟩ := r.split_ordered rangeDivisible
          obtain ⟨left, leftPerm, first⟩ := inductionHypothesis r.split.1.size (by omega)
            (p.grain r.size).2 r.split.1 leftOrdered rfl
          obtain ⟨right, rightPerm, second⟩ := inductionHypothesis r.split.2.size (by omega)
            (p.grain r.size).2 r.split.2 rightOrdered rfl
          rw [grainSize, Partitioner.grain_grain] at first second
          exact ⟨left ++ right, (leftPerm.append rightPerm).trans (leaves_of_divisible divisible).symm,
            first.append rangeDivisible second⟩

/-- Recursive partitioning is a partition. -/
theorem partition_correct (p : Partitioner) (r : StridedRange) (ordered : r.start < r.last) :
    (∃ parts : List StridedRange, parts.Perm (leaves p r) ∧
        parts.Pairwise (fun first second => first.start < second.start) ∧
        parts.flatMap StridedRange.elements = r.elements) ∧
      (∀ leaf ∈ leaves p r, 0 < leaf.size ∧ (leaf.size : Int) ≤ max (p.grain r.size).1 1 ∧
        (p.grainSize < 0 → leaf.size = 1)) ∧
      ∀ q t, Occurs p r q t → t.size = t.elements.length := by
  obtain ⟨parts, perm, isPartition⟩ := leaves_isPartition p r ordered
  refine ⟨⟨parts, perm, isPartition.sorted, isPartition.elements⟩, fun leaf member => ?_,
    fun q t occurs => (t.length_elements (occurs.ordered ordered).le).symm⟩
  have isPart := perm.mem_iff.mpr member
  exact ⟨(isPartition.nonempty leaf isPart).1, isPartition.bounded leaf isPart,
    fun full => isPartition.single full leaf isPart⟩

end Leaves

/-- The range 1, 3, 5, 7, 9 is split fully. -/
theorem partition_correct_odd :
    ∃ parts : List StridedRange,
      parts.Perm (leaves (.create (-1) 4 (by decide)) (make 1 10 2 (by decide))) ∧
        parts.flatMap StridedRange.elements = [1, 3, 5, 7, 9] ∧
          ∀ part ∈ parts, part.size = 1 := by
  have size : (make 1 10 2 (by decide)).size = 5 := by
    simp [make, initSize]
  obtain ⟨⟨parts, perm, -, elements⟩, sizes, -⟩ := partition_correct (.create (-1) 4 (by decide))
    (make 1 10 2 (by decide)) (by decide)
  refine ⟨parts, perm, ?_, fun part member => ?_⟩
  · rw [elements, elements_eq _ (by decide), size]
    rfl
  · exact (sizes part (perm.mem_iff.mp member)).2.2 (by decide)

end CnC.Range
