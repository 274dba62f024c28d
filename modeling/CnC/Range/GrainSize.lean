import CnC.Range.Partitioner

/-!
# The number of threads

The variable `CNC_NUM_THREADS` is read by the context and by both constructors of a partitioner,
each time anew.  A partitioner computes the grain from its number of threads when it is used for
the first time, and its copies keep the grain.
-/

namespace CnC.Range

def isSpace (c : Char) : Bool :=
  c.toNat == 32 || (9 ≤ c.toNat && c.toNat ≤ 13)

/-- Spaces, a sign, and digits.  What follows is ignored, and a number which is no `int` is
truncated. -/
def atoi (value : String) : Int :=
  let rest := value.toList.dropWhile isSpace
  let (sign, rest) : Int × List Char :=
    match rest with
    | '-' :: rest => (-1, rest)
    | '+' :: rest => (1, rest)
    | rest => (1, rest)
  let digits : Int := (rest.takeWhile Char.isDigit).foldl
    (fun digits c => digits * 10 + (c.toNat - 48 : Nat)) 0
  (BitVec.ofInt 32 (max (-2 ^ 63) (min (sign * digits) (2 ^ 63 - 1)))).toInt

example : atoi " -12 threads" = -12 := by decide

/-- `CNC_NUM_THREADS`, if it is set, and `default_concurrency()`. -/
structure Environment where
  numThreads : Option String
  concurrency : Nat
  concurrencyPos : 0 < concurrency
  concurrencyInt : concurrency < 2 ^ 31

namespace Environment

def contextThreads (env : Environment) : Int :=
  match env.numThreads with
  | some value => if atoi value ≤ 0 then env.concurrency else atoi value
  | none => env.concurrency

def partitionerThreads (env : Environment) : Int :=
  match env.numThreads with
  | some value => atoi value
  | none => env.concurrency

end Environment

/-- The members `m_grainSize` and `m_nt` of a partitioner whose template argument is 0. -/
structure AutoPartitioner where
  cached : Int
  threads : Int

namespace AutoPartitioner

def create (env : Environment) : AutoPartitioner :=
  ⟨0, env.partitionerThreads⟩

def copy (env : Environment) (o : AutoPartitioner) : AutoPartitioner :=
  ⟨o.cached, env.partitionerThreads⟩

/-- The conversion to `size_t`. -/
def sizeT (x : Int) : Nat :=
  (BitVec.ofInt 64 x).toNat

/-- `grain_size`, which has no result if it divides by zero.  The quotient is converted to
`int`. -/
def grainSize (p : AutoPartitioner) (rangeSize : Nat) : Option (Int × AutoPartitioner) :=
  if p.cached ≤ 0 then
    if rangeSize > 0 then
      if sizeT p.threads = 0 then none
      else
        let computed := max 1 (BitVec.ofNat 32 (rangeSize / sizeT p.threads / 4)).toInt
        some (computed, { p with cached := computed })
    else some (1, { p with cached := 1 })
  else some (p.cached, p)

/-- The partitioners of the ranges into which a range is divided.  A range which is split off has
a copy of the partitioner, which was used before. -/
inductive Divided (env : Environment) (p : AutoPartitioner) : AutoPartitioner → Prop
  | used : Divided env p p
  | again {q q' size grain} : Divided env p q → q.grainSize size = some (grain, q') →
      Divided env p q'
  | part {q} : Divided env p q → Divided env p (q.copy env)

/-- The grain exists, and it is the same for all parts of a range.  If the variable has no value
which can be used, the partitioner has as many threads as the context. -/
structure Usable (env : Environment) : Prop where
  grain : ∀ rangeSize, ∃ grain p, (create env).grainSize rangeSize = some (grain, p) ∧ 1 ≤ grain ∧
    ∀ q, Divided env p q → ∀ size, ∃ q', q.grainSize size = some (grain, q')
  agree : ∀ value, env.numThreads = some value → atoi value ≤ 0 →
    env.contextThreads = env.partitionerThreads

variable {env : Environment} {p q : AutoPartitioner}

theorem cached_of_grainSize {rangeSize : Nat} {grain : Int}
    (computed : p.grainSize rangeSize = some (grain, q)) (unset : p.cached ≤ 0) :
    1 ≤ grain ∧ q.cached = grain := by
  rw [grainSize, if_pos unset] at computed
  split at computed
  · split at computed
    · cases computed
    · cases computed
      exact ⟨le_max_left 1 _, rfl⟩
  · cases computed
    exact ⟨le_rfl, rfl⟩

theorem grainSize_of_pos (set : 0 < p.cached) (size : Nat) :
    p.grainSize size = some (p.cached, p) :=
  if_neg (by omega)

theorem Divided.cached (divided : Divided env p q) (set : 0 < p.cached) : q.cached = p.cached := by
  induction divided with
  | used => rfl
  | again _ computed inductionHypothesis =>
      rw [grainSize_of_pos (by omega)] at computed
      cases computed
      exact inductionHypothesis
  | part _ inductionHypothesis => exact inductionHypothesis

theorem sizeT_pos {threads : Int} (positive : 0 < threads) (isInt : threads < 2 ^ 31) :
    sizeT threads = threads.toNat := by
  rw [sizeT, BitVec.toNat_ofInt]
  omega

theorem atoi_lt (value : String) : atoi value < 2 ^ 31 :=
  BitVec.toInt_lt

theorem threads_pos (usable : ∀ value, env.numThreads = some value → 0 < atoi value) :
    0 < env.partitionerThreads ∧ env.partitionerThreads < 2 ^ 31 := by
  have := env.concurrencyPos
  have := env.concurrencyInt
  rw [Environment.partitionerThreads]
  split
  · rename_i value isValue
    exact ⟨usable value isValue, atoi_lt value⟩
  · omega

theorem sizeT_create (usable : ∀ value, env.numThreads = some value → 0 < atoi value) :
    sizeT (create env).threads ≠ 0 := by
  obtain ⟨threadsPos, threadsInt⟩ := threads_pos usable
  have isThreads : (create env).threads = env.partitionerThreads := rfl
  rw [isThreads, sizeT_pos threadsPos threadsInt]
  omega

/-- The grain of a range whose size is an `int`, if the number of threads is positive. -/
theorem grainSize_create (usable : ∀ value, env.numThreads = some value → 0 < atoi value)
    {rangeSize : Nat} (small : rangeSize < 2 ^ 31)
    (threadsPos : 0 < env.partitionerThreads.toNat) :
    ((create env).grainSize rangeSize).map Prod.fst =
      some ((Partitioner.create 0 env.partitionerThreads.toNat threadsPos).grain rangeSize).1 := by
  obtain ⟨positive, threadsInt⟩ := threads_pos usable
  have isThreads : sizeT (create env).threads = env.partitionerThreads.toNat :=
    sizeT_pos positive threadsInt
  have quotient : rangeSize / env.partitionerThreads.toNat / 4 ≤ rangeSize :=
    (Nat.div_le_self _ _).trans (Nat.div_le_self _ _)
  have isNat : (BitVec.ofNat 32 (rangeSize / env.partitionerThreads.toNat / 4)).toInt =
      (rangeSize / env.partitionerThreads.toNat / 4 : Nat) := by
    have toNat : (BitVec.ofNat 32 (rangeSize / env.partitionerThreads.toNat / 4)).toNat =
        rangeSize / env.partitionerThreads.toNat / 4 := by
      rw [BitVec.toNat_ofNat]
      exact Nat.mod_eq_of_lt (by omega)
    rw [BitVec.toInt_eq_toNat_of_lt (by omega), toNat]
  rw [grainSize, if_pos (show (create env).cached ≤ 0 from le_rfl), if_neg (sizeT_create usable),
    isThreads, isNat]
  by_cases some_ : rangeSize > 0 <;> simp [Partitioner.grain, Partitioner.create, some_]

/-- The grain is usable exactly if the variable is not set or has a positive value. -/
theorem grain_usable_iff (env : Environment) :
    Usable env ↔ ∀ value, env.numThreads = some value → 0 < atoi value := by
  constructor
  · intro usable value isValue
    by_contra notPos
    have agree := usable.agree value isValue (by omega)
    have := env.concurrencyPos
    rw [Environment.contextThreads, Environment.partitionerThreads, isValue] at agree
    simp only [if_pos (show atoi value ≤ 0 by omega)] at agree
    omega
  · intro positive
    refine ⟨fun rangeSize => ?_, fun value isValue notPos => ?_⟩
    · have nonzero := sizeT_create positive
      obtain ⟨⟨grain, p⟩, computed⟩ : ∃ result, (create env).grainSize rangeSize = some result := by
        rw [grainSize, if_pos (show (create env).cached ≤ 0 from le_rfl), if_neg nonzero]
        split <;> exact ⟨_, rfl⟩
      obtain ⟨atLeast, cached⟩ := cached_of_grainSize computed (show (create env).cached ≤ 0 from le_rfl)
      refine ⟨grain, p, computed, atLeast, fun q divided size => ⟨q, ?_⟩⟩
      have same := divided.cached (by omega)
      rw [grainSize_of_pos (by omega), same, cached]
    · exact absurd (positive value isValue) (by omega)

/-- With the value 0 the size of the range is divided by zero. -/
theorem grain_not_usable : ¬ Usable ⟨some "0", 4, by decide, by decide⟩ := by
  intro usable
  obtain ⟨grain, p, computed, -⟩ := usable.grain 1
  have undefined : (create ⟨some "0", 4, by decide, by decide⟩).grainSize 1 = none := by decide
  rw [undefined] at computed
  cases computed

end AutoPartitioner

end CnC.Range
