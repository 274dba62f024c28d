import Mathlib.Data.Nat.Log
import Mathlib.Tactic

/-!
# The buffer of a serializer

Positions are given relative to the begin of the allocation, and sizes are computed in 64
bits.  A cell of the memory which has not been written since its allocation holds nothing.
-/

namespace CnC.Serialize

abbrev Bytes := List UInt8

/-- The values of `size_type`. -/
abbrev Size := Fin (2 ^ 64)

/-- `CRC_SIZE`. -/
def crcSize : Nat := 4

/-- `MAX_HEADER_SIZE`. -/
def maxHeaderSize : Nat := 8 + 2 * crcSize

/-- The difference of two positions as a `size_type`. -/
def difference (a b : Nat) : Nat :=
  (a + 2 ^ 64 - b) % 2 ^ 64

/-- `allocated` tells whether `m_buf` is set. -/
structure Buffer where
  allocated : Bool
  mem : Nat → Option UInt8
  size : Nat
  curr : Nat
  body : Nat
  header : Nat
  addCRC : Bool
  addSize : Bool

/-- Why an operation does not return: a loop does not end, the program is aborted, or it accesses
memory which it does not have. -/
inductive Stop where
  | endless
  | aborted
  | crashed
  deriving DecidableEq

/-- The loop which doubles the size, with at most the given number of turns. -/
def grow : Nat → Nat → Nat → Except Stop Nat
  | 0, _, _ => .error .endless
  | turns + 1, size, newSz =>
      let size := size * 2 % 2 ^ 64
      if size < newSz then grow turns size newSz else .ok size

/-- The bytes of an unsigned integer, the lowest one first. -/
def toBytes : Nat → Nat → Bytes
  | 0, _ => []
  | width + 1, n => UInt8.ofNat n :: toBytes width (n / 256)

namespace Buffer

def create (addCRC addSize : Bool) : Buffer :=
  { allocated := false, mem := fun _ => none, size := 0, curr := 0, body := 0, header := 0
    addCRC := addCRC, addSize := addSize }

/-- `getHeaderSize`. -/
def headerSize (b : Buffer) : Nat :=
  let crc := if b.addCRC then crcSize else 0
  if b.addSize then crc + crc + 8 else crc

/-- `granted` tells whether `scalable_malloc` returns memory; its result is not tested.  A new
allocation gets what is before the current position.  After 64 turns the size is zero, and then
the loop goes on for ever. -/
def ensureCapacity (b : Buffer) (granted : Bool) (newSz : Nat) : Except Stop Buffer :=
  let newSz := (newSz + b.header) % 2 ^ 64
  if newSz ≤ b.size ∧ 0 < b.size then .ok b
  else
    let oldSz := difference b.curr b.body
    (grow 64 (if b.size = 0 then 32 else b.size) newSz).bind fun size =>
      if b.allocated ∧ ¬ granted then .error .crashed
      else .ok { b with
        allocated := granted
        mem := fun i => if b.allocated ∧ i < oldSz + maxHeaderSize then b.mem i else none
        size := size
        body := maxHeaderSize
        header := maxHeaderSize - b.headerSize
        curr := (maxHeaderSize + oldSz) % 2 ^ 64 }

def acquire (b : Buffer) (granted : Bool) (len : Nat) : Except Stop (Nat × Buffer) :=
  let oldSz := difference b.curr b.header
  (b.ensureCapacity granted ((oldSz + len) % 2 ^ 64)).map fun b =>
    (b.curr, { b with curr := (b.curr + len) % 2 ^ 64 })

def reserve (b : Buffer) (granted : Bool) (n : Nat) : Except Stop (Nat × Buffer) :=
  b.acquire granted n

/-- The current position is set to the begin of the body. -/
def restart (b : Buffer) : Buffer :=
  if b.allocated then
    { b with
      body := maxHeaderSize
      header := maxHeaderSize - b.headerSize
      curr := maxHeaderSize }
  else b

def reset (b : Buffer) (granted addCRC addSize forceNonEmpty : Bool) : Except Stop Buffer :=
  let b := { b with addCRC := addCRC, addSize := addSize }
  let nonEmpty :=
    if forceNonEmpty then
      (({ b with curr := b.body } : Buffer).acquire granted (2 * maxHeaderSize)).map Prod.snd
    else .ok b
  nonEmpty.map restart

/-- `memcpy` to the given position. -/
def store (b : Buffer) (pos : Nat) (bytes : Bytes) : Buffer :=
  { b with mem := fun i =>
      if pos ≤ i ∧ i < pos + bytes.length then bytes[i - pos]? else b.mem i }

/-- The code for a CRC is not reached in a working program. -/
def finalizePack (b : Buffer) (granted : Bool) : Except Stop Buffer :=
  let filled := if b.allocated then .ok b else b.ensureCapacity granted 0
  filled.bind fun b =>
    if b.addCRC then .error .aborted
    else if b.addSize then
      if b.allocated then .ok (b.store b.header (toBytes 8 (difference b.curr b.body)))
      else .error .crashed
    else .ok b

/-- Either nothing is allocated, or the positions are in order. -/
def Consistent (b : Buffer) : Prop :=
  if b.allocated then
    b.header + b.headerSize = b.body ∧ b.body = maxHeaderSize ∧ b.body ≤ b.curr ∧ b.curr ≤ b.size
  else b.curr = 0 ∧ b.body = 0 ∧ b.header = 0 ∧ b.size = 0

end Buffer

/-- What a user of a buffer may do.  Between the operations of the buffer, bytes are stored
in what was handed out. -/
inductive Op where
  | reset (addCRC addSize forceNonEmpty : Bool)
  | acquire (len : Size)
  | reserve (len : Size)
  | ensureCapacity (n : Size)
  | finalizePack
  | write (pos : Nat) (byte : UInt8)

/-- `granted` tells whether memory is returned if the operation asks for it. -/
structure Call where
  op : Op
  granted : Bool

/-- A buffer with the bytes which were written since the last `reset`. -/
structure Session where
  buffer : Buffer
  written : Nat → Option UInt8

namespace Session

def start (addCRC addSize : Bool) : Session :=
  { buffer := .create addCRC addSize, written := fun _ => none }

/-- The region which is handed out comes with its length. -/
def perform (s : Session) (call : Call) : Except Stop (Option (Nat × Nat) × Session) :=
  match call.op with
  | .reset addCRC addSize forceNonEmpty =>
      (s.buffer.reset call.granted addCRC addSize forceNonEmpty).map fun b =>
        (none, { buffer := b, written := fun _ => none })
  | .acquire len =>
      (s.buffer.acquire call.granted len).map fun found =>
        (some (found.1, len), { s with buffer := found.2 })
  | .reserve len =>
      (s.buffer.reserve call.granted len).map fun found =>
        (some (found.1, len), { s with buffer := found.2 })
  | .ensureCapacity n =>
      (s.buffer.ensureCapacity call.granted n).map fun b => (none, { s with buffer := b })
  | .finalizePack =>
      (s.buffer.finalizePack call.granted).map fun b => (none, { s with buffer := b })
  | .write pos byte =>
      if s.buffer.body ≤ pos ∧ pos < s.buffer.curr then
        .ok (none,
          { buffer := s.buffer.store pos [byte]
            written := Function.update s.written pos (some byte) })
      else .ok (none, s)

def Kept (s : Session) : Prop :=
  ∀ i byte, s.written i = some byte → s.buffer.mem i = some byte

/-- After the operation the buffer is consistent, what was handed out is inside of the
allocation, and what was written is kept. -/
def Sound (s : Session) (call : Call) : Prop :=
  match s.perform call with
  | .error .endless | .error .crashed => False
  | .error .aborted => True
  | .ok (region, next) =>
      next.buffer.Consistent ∧ next.Kept ∧
        ∀ pos len, region = some (pos, len) →
          next.buffer.allocated = true ∧ pos + len ≤ next.buffer.size

/-- The operation is done without an overflow, the first allocation has room for a header, and
memory is returned when the operation asks for it. -/
def Fits (s : Session) (call : Call) : Prop :=
  match call.op with
  | .acquire len | .reserve len =>
      if s.buffer.allocated then
        s.buffer.curr + len ≤ 2 ^ 63 ∧
          (call.granted = true ∨ s.buffer.curr + len ≤ s.buffer.size)
      else call.granted = true ∧ len.val ≤ 2 ^ 63 ∧
        len + maxHeaderSize ≤ max 64 (2 ^ Nat.clog 2 len)
  | .ensureCapacity n =>
      (n + s.buffer.header) % 2 ^ 64 ≤ 2 ^ 63 ∧
        (call.granted = true ∨
          0 < s.buffer.size ∧ (n + s.buffer.header) % 2 ^ 64 ≤ s.buffer.size)
  | .reset _ _ forceNonEmpty =>
      call.granted = true ∨ s.buffer.allocated = true ∨ forceNonEmpty = false
  | .finalizePack =>
      call.granted = true ∨ s.buffer.allocated = true ∨ s.buffer.addCRC = true
  | .write _ _ => True

/-- Every operation of the sequence meets the property in the state in which it is done. -/
def Along (property : Session → Call → Prop) : Session → List Call → Prop
  | _, [] => True
  | s, call :: calls =>
      property s call ∧
        ∀ region next, s.perform call = .ok (region, next) → next.Along property calls

end Session

theorem difference_of_le {a b : Nat} (ordered : b ≤ a) (bounded : a < 2 ^ 64) :
    difference a b = a - b := by
  unfold difference
  omega

@[simp] theorem length_toBytes (width n : Nat) : (toBytes width n).length = width := by
  induction width generalizing n with
  | zero => rfl
  | succ width inductionHypothesis => rw [toBytes, List.length_cons, inductionHypothesis]

theorem grow_zero {newSz : Nat} (positive : 0 < newSz) (turns : Nat) :
    grow turns 0 newSz = .error .endless := by
  induction turns with
  | zero => rfl
  | succ turns inductionHypothesis =>
      simp only [grow, Nat.zero_mul, Nat.zero_mod, if_pos positive]
      exact inductionHypothesis

theorem grow_of_large {newSz : Nat} (large : 2 ^ 63 < newSz) (turns k : Nat) :
    grow turns (2 ^ k) newSz = .error .endless := by
  induction turns generalizing k with
  | zero => rfl
  | succ turns inductionHypothesis =>
      by_cases small : k + 1 < 64
      · have bound : 2 ^ (k + 1) ≤ 2 ^ 63 := Nat.pow_le_pow_right (by decide) (by omega)
        have same : 2 ^ k * 2 % 2 ^ 64 = 2 ^ (k + 1) := by
          rw [← Nat.pow_succ]
          exact Nat.mod_eq_of_lt (Nat.pow_lt_pow_right (by decide) small)
        simp only [grow, same, if_pos (bound.trans_lt large)]
        exact inductionHypothesis (k + 1)
      · have isZero : 2 ^ k * 2 % 2 ^ 64 = 0 := by
          rw [← Nat.pow_succ]
          exact Nat.mod_eq_zero_of_dvd (Nat.pow_dvd_pow 2 (by omega))
        have positive : 0 < newSz := by omega
        simp only [grow, isZero, if_pos positive]
        exact grow_zero positive turns

theorem grow_of_small {newSz : Nat} (small : newSz ≤ 2 ^ 63) {turns k : Nat} (below : k < 63)
    (enough : 63 ≤ k + turns) :
    ∃ m, k < m ∧ m ≤ 63 ∧ grow turns (2 ^ k) newSz = .ok (2 ^ m) ∧ newSz ≤ 2 ^ m ∧
      (m = k + 1 ∨ 2 ^ (m - 1) < newSz) := by
  induction turns generalizing k with
  | zero => omega
  | succ turns inductionHypothesis =>
      have same : 2 ^ k * 2 % 2 ^ 64 = 2 ^ (k + 1) := by
        rw [← Nat.pow_succ]
        exact Nat.mod_eq_of_lt (Nat.pow_lt_pow_right (by decide) (by omega))
      by_cases again : 2 ^ (k + 1) < newSz
      · have below' : k + 1 < 63 := by
          by_contra isLast
          have : 2 ^ 63 ≤ 2 ^ (k + 1) := Nat.pow_le_pow_right (by decide) (by omega)
          omega
        obtain ⟨m, larger, atMost, grown, fits, least⟩ :=
          inductionHypothesis below' (by omega)
        refine ⟨m, by omega, atMost, ?_, fits, .inr ?_⟩
        · simp only [grow, same, if_pos again, grown]
        · rcases least with rfl | least
          · exact again
          · exact least
      · refine ⟨k + 1, by omega, by omega, ?_, by omega, .inl rfl⟩
        simp only [grow, same, if_neg again]

theorem max_clog {n m : Nat} (fits : n ≤ 2 ^ m) (least : m = 6 ∨ 2 ^ (m - 1) < n) (larger : 5 < m) :
    2 ^ m = max 64 (2 ^ Nat.clog 2 n) := by
  have atMost : Nat.clog 2 n ≤ m := (Nat.clog_le_iff_le_pow (by decide)).mpr fits
  rcases least with rfl | least
  · have : 2 ^ Nat.clog 2 n ≤ 2 ^ 6 := Nat.pow_le_pow_right (by decide) atMost
    omega
  · have atLeast : m - 1 < Nat.clog 2 n := (Nat.lt_clog_iff_pow_lt (by decide)).mpr least
    have same : Nat.clog 2 n = m := by omega
    have : 2 ^ 6 ≤ 2 ^ m := Nat.pow_le_pow_right (by decide) (by omega)
    rw [same]
    omega

namespace Buffer

theorem headerSize_le (b : Buffer) : b.headerSize ≤ maxHeaderSize := by
  simp only [headerSize, maxHeaderSize, crcSize]
  split <;> split <;> omega

structure Ready (b : Buffer) : Prop where
  consistent : b.Consistent
  power : b.allocated = true → ∃ k, 6 ≤ k ∧ k ≤ 63 ∧ b.size = 2 ^ k

theorem create_ready (addCRC addSize : Bool) : (create addCRC addSize).Ready where
  consistent := by simp [Consistent, create]
  power isAllocated := by cases isAllocated

structure Allocated (b : Buffer) : Prop where
  allocated : b.allocated = true
  header : b.header + b.headerSize = maxHeaderSize
  body : b.body = maxHeaderSize
  curr : maxHeaderSize ≤ b.curr
  currLe : b.curr ≤ b.size
  power : ∃ k, 6 ≤ k ∧ k ≤ 63 ∧ b.size = 2 ^ k

variable {b next : Buffer}

namespace Allocated

theorem ready (valid : b.Allocated) : b.Ready where
  consistent := by
    rw [Consistent, if_pos valid.allocated, valid.body]
    exact ⟨valid.header, rfl, valid.curr, valid.currLe⟩
  power _ := valid.power

theorem size_le (valid : b.Allocated) : 64 ≤ b.size ∧ b.size ≤ 2 ^ 63 := by
  obtain ⟨k, atLeast, atMost, isPower⟩ := valid.power
  have low : 2 ^ 6 ≤ 2 ^ k := Nat.pow_le_pow_right (by decide) atLeast
  have high : 2 ^ k ≤ 2 ^ 63 := Nat.pow_le_pow_right (by decide) atMost
  rw [isPower]
  exact ⟨low, high⟩

end Allocated

theorem Ready.cases (ready : b.Ready) :
    b.Allocated ∨
      (b.allocated = false ∧ b.curr = 0 ∧ b.body = 0 ∧ b.header = 0 ∧ b.size = 0) := by
  have consistent := ready.consistent
  unfold Consistent at consistent
  split at consistent
  · rename_i isAllocated
    obtain ⟨header, body, curr, currLe⟩ := consistent
    exact .inl ⟨isAllocated, by omega, body, by omega, currLe, ready.power isAllocated⟩
  · rename_i notAllocated
    exact .inr ⟨by simpa using notAllocated, consistent⟩

/-- What `ensureCapacity` leaves as it is. -/
structure Enlarged (b next : Buffer) : Prop extends next.Allocated where
  position : next.curr = if b.allocated then b.curr else maxHeaderSize
  addCRC : next.addCRC = b.addCRC
  addSize : next.addSize = b.addSize
  mem : b.allocated = true → ∀ i, i < b.curr → next.mem i = b.mem i

/-- The operation does not return. -/
def Lost {α : Type} (result : Except Stop α) : Prop :=
  result = .error .endless ∨ result = .error .crashed

theorem Allocated.ensureCapacity (valid : b.Allocated) (granted : Bool) (n : Nat) :
    ((n + b.header) % 2 ^ 64 ≤ 2 ^ 63 →
        granted = true ∨ (n + b.header) % 2 ^ 64 ≤ b.size →
        ∃ next, b.ensureCapacity granted n = .ok next ∧ Enlarged b next ∧
          (n + b.header) % 2 ^ 64 ≤ next.size) ∧
      (2 ^ 63 < (n + b.header) % 2 ^ 64 ∨ granted = false ∧ b.size < (n + b.header) % 2 ^ 64 →
        Lost (b.ensureCapacity granted n)) := by
  obtain ⟨isAllocated, header, body, curr, currLe, k, atLeast, atMost, isPower⟩ := id valid
  have sizes := valid.size_le
  have notEmpty : b.size ≠ 0 := by omega
  have oldSz : difference b.curr b.body = b.curr - maxHeaderSize := by
    rw [body]
    exact difference_of_le curr (by omega)
  have notLast {newSz : Nat} (small : newSz ≤ 2 ^ 63) (larger : b.size < newSz) : k < 63 := by
    by_contra isLast
    have : k = 63 := by omega
    subst this
    omega
  unfold Buffer.ensureCapacity
  simp only [if_neg notEmpty]
  generalize (n + b.header) % 2 ^ 64 = newSz
  constructor
  · intro small has
    by_cases enough : newSz ≤ b.size ∧ 0 < b.size
    · rw [if_pos enough]
      exact ⟨b, rfl, ⟨valid, by rw [if_pos isAllocated], rfl, rfl, fun _ _ _ => rfl⟩, enough.1⟩
    · rw [if_neg enough]
      have isGranted : granted = true := has.resolve_right (by omega)
      obtain ⟨m, larger, atMost', grown, fits, -⟩ :=
        @grow_of_small newSz small 64 k (notLast small (by omega)) (by omega)
      have sizeLt : 2 ^ k < 2 ^ m := Nat.pow_lt_pow_right (by decide) larger
      have sizeLe : 2 ^ m ≤ 2 ^ 63 := Nat.pow_le_pow_right (by decide) atMost'
      have position : (maxHeaderSize + (b.curr - maxHeaderSize)) % 2 ^ 64 = b.curr := by
        rw [Nat.add_sub_cancel' curr]
        exact Nat.mod_eq_of_lt (by omega)
      have notRefused : ¬ (b.allocated = true ∧ ¬ granted = true) := fun refused =>
        refused.2 isGranted
      rw [isPower, grown]
      refine ⟨_, if_neg notRefused, ⟨⟨isGranted, ?_, rfl, ?_, ?_, m, by omega, atMost', rfl⟩, ?_,
        rfl, rfl, ?_⟩, fits⟩
      · exact Nat.sub_add_cancel b.headerSize_le
      · simp only [oldSz, position]
        exact curr
      · simp only [oldSz, position]
        omega
      · simp only [oldSz, position, isAllocated, if_true]
      · intro _ i inside
        have copied : i < b.curr - maxHeaderSize + maxHeaderSize := by omega
        simp only [isAllocated, oldSz, copied, and_self, if_true]
  · intro outside
    have tooSmall : ¬ (newSz ≤ b.size ∧ 0 < b.size) := by omega
    rw [if_neg tooSmall, isPower]
    rcases Nat.lt_or_ge (2 ^ 63) newSz with large | small
    · rw [grow_of_large large]
      exact .inl rfl
    · obtain ⟨isRefused, larger⟩ := outside.resolve_left (Nat.not_lt.mpr small)
      obtain ⟨m, -, -, grown, -, -⟩ :=
        @grow_of_small newSz small 64 k (notLast small larger) (by omega)
      have refused : b.allocated = true ∧ ¬ granted = true :=
        ⟨isAllocated, by rw [isRefused]; exact Bool.false_ne_true⟩
      rw [grown]
      exact .inr (if_pos refused)

theorem ensureCapacity_of_empty (isEmpty : b.allocated = false) (curr : b.curr = 0)
    (body : b.body = 0) (header : b.header = 0) (size : b.size = 0) {n : Nat}
    (bounded : n < 2 ^ 64) :
    (n ≤ 2 ^ 63 → ∃ next, b.ensureCapacity true n = .ok next ∧ Enlarged b next ∧
        next.size = max 64 (2 ^ Nat.clog 2 n)) ∧
      (2 ^ 63 < n → ∀ granted, Lost (b.ensureCapacity granted n)) := by
  have newSz : (n + b.header) % 2 ^ 64 = n := by
    rw [header]
    exact Nat.mod_eq_of_lt bounded
  have oldSz : difference b.curr b.body = 0 := by
    rw [curr, body]
    rfl
  have tooSmall : ¬ (n ≤ b.size ∧ 0 < b.size) := by omega
  have notRefused : ¬ (b.allocated = true ∧ ¬ True) := fun refused => refused.2 trivial
  unfold Buffer.ensureCapacity
  simp only [newSz, if_neg tooSmall, oldSz, if_pos size]
  constructor
  · intro small
    obtain ⟨m, larger, atMost, grown, fits, least⟩ :=
      @grow_of_small n small 64 5 (by decide) (by decide)
    have sizeLe : 2 ^ 6 ≤ 2 ^ m := Nat.pow_le_pow_right (by decide) (by omega)
    rw [show (32 : Nat) = 2 ^ 5 from rfl, grown]
    refine ⟨_, if_neg notRefused, ⟨⟨rfl, ?_, rfl, ?_, ?_, m, by omega, atMost, rfl⟩, ?_, rfl, rfl,
      ?_⟩, ?_⟩
    · exact Nat.sub_add_cancel b.headerSize_le
    · simp [maxHeaderSize, crcSize]
    · simp only [maxHeaderSize, crcSize]
      omega
    · rw [isEmpty]
      simp [maxHeaderSize, crcSize]
    · rw [isEmpty]
      rintro ⟨⟩
    · exact max_clog fits least larger
  · intro large granted
    rw [show (32 : Nat) = 2 ^ 5 from rfl, grow_of_large large]
    exact .inl rfl

theorem ensureCapacity_refused (isEmpty : b.allocated = false) (size : b.size = 0) (n : Nat) :
    (2 ^ 63 < (n + b.header) % 2 ^ 64 → Lost (b.ensureCapacity false n)) ∧
      ((n + b.header) % 2 ^ 64 ≤ 2 ^ 63 → ∃ next, b.ensureCapacity false n = .ok next ∧
        next.allocated = false ∧ next.body = maxHeaderSize ∧ next.addCRC = b.addCRC) := by
  have tooSmall : ¬ ((n + b.header) % 2 ^ 64 ≤ b.size ∧ 0 < b.size) := by omega
  have notCopied : ¬ (b.allocated = true ∧ ¬ (false : Bool) = true) := fun copied => by
    rw [isEmpty] at copied
    exact Bool.false_ne_true copied.1
  unfold Buffer.ensureCapacity
  simp only [if_neg tooSmall, if_pos size]
  constructor
  · intro large
    rw [show (32 : Nat) = 2 ^ 5 from rfl, grow_of_large large]
    exact .inl rfl
  · intro small
    obtain ⟨m, -, -, grown, -, -⟩ := @grow_of_small _ small 64 5 (by decide) (by decide)
    rw [show (32 : Nat) = 2 ^ 5 from rfl, grown]
    exact ⟨_, if_neg notCopied, rfl, rfl, rfl⟩

/-- What `acquire` leaves as it is. -/
structure Acquired (b next : Buffer) (len : Nat) : Prop extends next.Allocated where
  position : next.curr = (if b.allocated then b.curr else maxHeaderSize) + len
  addCRC : next.addCRC = b.addCRC
  addSize : next.addSize = b.addSize
  mem : b.allocated = true → ∀ i, i < b.curr → next.mem i = b.mem i

theorem Enlarged.acquired {len : Nat} (enlarged : Enlarged b next)
    (fits : next.curr + len ≤ next.size) :
    Acquired b { next with curr := (next.curr + len) % 2 ^ 64 } len := by
  have sizes := enlarged.size_le
  have position : (next.curr + len) % 2 ^ 64 = next.curr + len := Nat.mod_eq_of_lt (by omega)
  obtain ⟨⟨allocated, header, body, curr, -, power⟩, isAt, addCRC, addSize, mem⟩ := enlarged
  refine ⟨⟨allocated, header, body, ?_, ?_, power⟩, ?_, addCRC, addSize, mem⟩
  · simp only [position]
    omega
  · simp only [position]
    exact fits
  · simp only [position]
    rw [isAt]

theorem Allocated.newSz (valid : b.Allocated) {len : Nat} (fits : b.curr + len ≤ 2 ^ 63) :
    ((difference b.curr b.header + len) % 2 ^ 64 + b.header) % 2 ^ 64 = b.curr + len := by
  have sizes := valid.size_le
  have currLe := valid.currLe
  have curr := valid.curr
  have headerLe : b.header ≤ maxHeaderSize := by
    have := valid.header
    omega
  rw [difference_of_le (by omega) (by omega)]
  omega

theorem Allocated.acquire (valid : b.Allocated) {granted : Bool} {len : Nat}
    (fits : b.curr + len ≤ 2 ^ 63) (has : granted = true ∨ b.curr + len ≤ b.size) :
    ∃ next, b.acquire granted len = .ok (b.curr, next) ∧ Acquired b next len := by
  obtain ⟨enlarge, -⟩ :=
    valid.ensureCapacity granted ((difference b.curr b.header + len) % 2 ^ 64)
  rw [valid.newSz fits] at enlarge
  obtain ⟨next, isNext, enlarged, enough⟩ := enlarge fits has
  have position : next.curr = b.curr := by
    rw [enlarged.position, if_pos valid.allocated]
  refine ⟨_, ?_, enlarged.acquired (by omega)⟩
  rw [Buffer.acquire, isNext]
  simp only [Except.map, position]

theorem Lost.map {α β : Type} {result : Except Stop α} (lost : Lost result) (f : α → β) :
    Lost (result.map f) := by
  rcases lost with isEndless | isCrashed
  · rw [isEndless]
    exact .inl rfl
  · rw [isCrashed]
    exact .inr rfl

theorem Allocated.acquire_outside (valid : b.Allocated) {granted : Bool} {len : Nat}
    (outside : 2 ^ 63 < b.curr + len ∨ granted = false ∧ b.size < b.curr + len) :
    Lost (b.acquire granted len) ∨
      ∃ next, b.acquire granted len = .ok (b.curr, next) ∧ next.size < b.curr + len := by
  obtain ⟨small, tooLarge⟩ :=
    valid.ensureCapacity granted ((difference b.curr b.header + len) % 2 ^ 64)
  by_cases isLost : 2 ^ 63 < ((difference b.curr b.header + len) % 2 ^ 64 + b.header) % 2 ^ 64 ∨
    granted = false ∧
      b.size < ((difference b.curr b.header + len) % 2 ^ 64 + b.header) % 2 ^ 64
  · exact .inl ((tooLarge isLost).map _)
  · obtain ⟨notLarge, notRefused⟩ := not_or.mp isLost
    have has : granted = true ∨
        ((difference b.curr b.header + len) % 2 ^ 64 + b.header) % 2 ^ 64 ≤ b.size := by
      cases isGranted : granted with
      | true => exact .inl rfl
      | false => exact .inr (Nat.not_lt.mp fun larger => notRefused ⟨isGranted, larger⟩)
    obtain ⟨next, isNext, enlarged, -⟩ := small (Nat.not_lt.mp notLarge) has
    have sizes := enlarged.size_le
    have position : next.curr = b.curr := by
      rw [enlarged.position, if_pos valid.allocated]
    have large : 2 ^ 63 < b.curr + len := by
      rcases outside with large | ⟨isRefused, larger⟩
      · exact large
      · by_contra notFar
        exact notRefused ⟨isRefused, valid.newSz (Nat.not_lt.mp notFar) ▸ larger⟩
    refine .inr ⟨{ next with curr := (next.curr + len) % 2 ^ 64 }, ?_, sizes.2.trans_lt large⟩
    rw [Buffer.acquire, isNext]
    simp only [Except.map, position]

theorem acquire_of_empty (isEmpty : b.allocated = false) (curr : b.curr = 0) (body : b.body = 0)
    (header : b.header = 0) (size : b.size = 0) {len : Nat} (bounded : len < 2 ^ 64) :
    (len ≤ 2 ^ 63 → len + maxHeaderSize ≤ max 64 (2 ^ Nat.clog 2 len) →
        ∃ next, b.acquire true len = .ok (maxHeaderSize, next) ∧ Acquired b next len) ∧
      (2 ^ 63 < len ∨ max 64 (2 ^ Nat.clog 2 len) < len + maxHeaderSize →
        Lost (b.acquire true len) ∨ ∃ next, b.acquire true len = .ok (maxHeaderSize, next) ∧
          next.size < maxHeaderSize + len) := by
  have newSz : (difference b.curr b.header + len) % 2 ^ 64 = len := by
    have none : difference b.curr b.header = 0 := by
      rw [curr, header]
      rfl
    rw [none, Nat.zero_add]
    exact Nat.mod_eq_of_lt bounded
  obtain ⟨small, tooLarge⟩ := ensureCapacity_of_empty isEmpty curr body header size bounded
  constructor
  · intro isSmall fits
    obtain ⟨next, isNext, enlarged, isSize⟩ := small isSmall
    have position : next.curr = maxHeaderSize := by
      rw [enlarged.position, isEmpty]
      rfl
    refine ⟨_, ?_, enlarged.acquired (by omega)⟩
    rw [Buffer.acquire, newSz, isNext]
    simp only [Except.map, position]
  · intro outside
    rcases Nat.lt_or_ge (2 ^ 63) len with isLarge | isSmall
    · left
      rw [Buffer.acquire, newSz]
      exact (tooLarge isLarge true).map _
    · right
      obtain ⟨next, isNext, enlarged, isSize⟩ := small isSmall
      have position : next.curr = maxHeaderSize := by
        rw [enlarged.position, isEmpty]
        rfl
      refine ⟨{ next with curr := (next.curr + len) % 2 ^ 64 }, ?_, ?_⟩
      · rw [Buffer.acquire, newSz, isNext]
        simp only [Except.map, position]
      · simp only
        omega

theorem acquire_refused (isEmpty : b.allocated = false) (size : b.size = 0) (len : Nat) :
    Lost (b.acquire false len) ∨ ∃ pos next, b.acquire false len = .ok (pos, next) ∧
      next.allocated = false ∧ next.body = maxHeaderSize := by
  obtain ⟨lost, refused⟩ :=
    ensureCapacity_refused isEmpty size ((difference b.curr b.header + len) % 2 ^ 64)
  rcases Nat.lt_or_ge (2 ^ 63)
    (((difference b.curr b.header + len) % 2 ^ 64 + b.header) % 2 ^ 64) with large | small
  · exact .inl ((lost large).map _)
  · obtain ⟨next, isNext, notAllocated, body, -⟩ := refused small
    refine .inr ⟨next.curr, { next with curr := (next.curr + len) % 2 ^ 64 }, ?_, notAllocated, body⟩
    rw [Buffer.acquire, isNext]
    rfl

theorem not_consistent (notAllocated : b.allocated = false) (body : b.body = maxHeaderSize) :
    ¬ b.Consistent := by
  intro consistent
  rw [Consistent, notAllocated, if_neg Bool.false_ne_true, body] at consistent
  exact absurd consistent.2.1 (by decide)

theorem allocated_restart (isAllocated : b.allocated = true)
    (power : ∃ k, 6 ≤ k ∧ k ≤ 63 ∧ b.size = 2 ^ k) : b.restart.Allocated := by
  rw [restart, if_pos isAllocated]
  refine ⟨isAllocated, Nat.sub_add_cancel b.headerSize_le, rfl, le_rfl, ?_, power⟩
  obtain ⟨k, atLeast, -, isPower⟩ := power
  have low : 2 ^ 6 ≤ 2 ^ k := Nat.pow_le_pow_right (by decide) atLeast
  simp only [isPower, maxHeaderSize, crcSize]
  omega

theorem Allocated.acquire_first (valid : b.Allocated) (granted addCRC addSize : Bool) :
    ({ b with addCRC := addCRC, addSize := addSize, curr := b.body } : Buffer).acquire granted
        (2 * maxHeaderSize) =
      .ok (b.body, { b with addCRC := addCRC, addSize := addSize, curr := 3 * maxHeaderSize }) := by
  have sizes := valid.size_le
  have bound : maxHeaderSize = 16 := rfl
  obtain ⟨-, header, body, -, -, -⟩ := valid
  have oldSz : difference b.body b.header = maxHeaderSize - b.header := by
    rw [body]
    exact difference_of_le (by omega) (by decide)
  have newSz : ((maxHeaderSize - b.header + 2 * maxHeaderSize) % 2 ^ 64 + b.header) % 2 ^ 64
      = 3 * maxHeaderSize := by
    omega
  have enough : 3 * maxHeaderSize ≤ b.size ∧ 0 < b.size := by omega
  have position : (b.body + 2 * maxHeaderSize) % 2 ^ 64 = 3 * maxHeaderSize := by omega
  rw [Buffer.acquire, Buffer.ensureCapacity]
  simp only
  rw [oldSz, newSz, if_pos enough]
  simp only [Except.map, position]

theorem Ready.reset (ready : b.Ready) {granted forceNonEmpty : Bool}
    (has : granted = true ∨ b.allocated = true ∨ forceNonEmpty = false) (addCRC addSize : Bool) :
    ∃ next, b.reset granted addCRC addSize forceNonEmpty = .ok next ∧ next.Ready := by
  cases forceNonEmpty with
  | true =>
      rcases ready.cases with valid | ⟨isEmpty, curr, body, header, size⟩
      · refine ⟨_, by rw [Buffer.reset, if_pos rfl, valid.acquire_first]; rfl, ?_⟩
        exact Allocated.ready (allocated_restart (by exact valid.allocated) (by exact valid.power))
      · obtain ⟨fits, -⟩ := @acquire_of_empty
          { b with addCRC := addCRC, addSize := addSize, curr := b.body }
          isEmpty body body header size (2 * maxHeaderSize) (by decide)
        obtain ⟨next, isNext, acquired⟩ := fits (by decide) (le_max_of_le_left (by decide))
        have isGranted : granted = true := by
          rcases has with isGranted | isAllocated | impossible
          · exact isGranted
          · rw [isEmpty] at isAllocated
            cases isAllocated
          · cases impossible
        refine ⟨_, by rw [Buffer.reset, if_pos rfl, isGranted, isNext]; rfl, ?_⟩
        exact (allocated_restart acquired.allocated acquired.power).ready
  | false =>
      refine ⟨_, rfl, ?_⟩
      rcases ready.cases with valid | ⟨isEmpty, curr, body, header, size⟩
      · exact Allocated.ready (allocated_restart (by exact valid.allocated) (by exact valid.power))
      · rw [restart, isEmpty]
        exact ⟨by simp [Consistent, curr, body, header, size], fun isAllocated => by cases isAllocated⟩

theorem Ready.reset_refused (ready : b.Ready) (isEmpty : b.allocated = false)
    (addCRC addSize : Bool) :
    Lost (b.reset false addCRC addSize true) ∨
      ∃ next, b.reset false addCRC addSize true = .ok next ∧ ¬ next.Consistent := by
  have consistent := ready.consistent
  rw [Consistent, isEmpty, if_neg Bool.false_ne_true] at consistent
  rcases acquire_refused (b := { b with addCRC := addCRC, addSize := addSize, curr := b.body })
    isEmpty consistent.2.2.2 (2 * maxHeaderSize) with lost | ⟨pos, next, isNext, notAllocated, body⟩
  · exact .inl ((lost.map Prod.snd).map restart)
  · refine .inr ⟨next, ?_, not_consistent notAllocated body⟩
    rw [Buffer.reset, if_pos rfl, isNext]
    simp only [Except.map, restart, notAllocated, Bool.false_eq_true, if_false]

@[simp] theorem store_allocated (b : Buffer) (pos : Nat) (bytes : Bytes) :
    (b.store pos bytes).allocated = b.allocated := rfl

theorem Allocated.store (valid : b.Allocated) (pos : Nat) (bytes : Bytes) :
    (b.store pos bytes).Allocated :=
  ⟨valid.allocated, valid.header, valid.body, valid.curr, valid.currLe, valid.power⟩

theorem Ready.finalizePack (ready : b.Ready) {granted : Bool}
    (has : granted = true ∨ b.allocated = true) :
    b.finalizePack granted = .error .aborted ∨
      ∃ next, b.finalizePack granted = .ok next ∧ next.Allocated ∧
        (b.allocated = true → next.curr = b.curr ∧
          ∀ i, maxHeaderSize ≤ i → i < b.curr → next.mem i = b.mem i) := by
  have filled : ∃ middle, (if b.allocated then .ok b else b.ensureCapacity granted 0) =
      .ok middle ∧ Enlarged b middle := by
    rcases ready.cases with valid | ⟨isEmpty, curr, body, header, size⟩
    · rw [if_pos valid.allocated]
      exact ⟨b, rfl, valid, by rw [if_pos valid.allocated], rfl, rfl, fun _ _ _ => rfl⟩
    · obtain ⟨small, -⟩ := ensureCapacity_of_empty isEmpty curr body header size
        (n := 0) (by decide)
      obtain ⟨middle, isMiddle, enlarged, -⟩ := small (by decide)
      rw [isEmpty] at has ⊢
      rw [has.resolve_right Bool.false_ne_true]
      exact ⟨middle, isMiddle, enlarged⟩
  obtain ⟨middle, isMiddle, enlarged⟩ := filled
  have position : b.allocated = true → middle.curr = b.curr := by
    intro isAllocated
    rw [enlarged.position, if_pos isAllocated]
  simp only [Buffer.finalizePack, isMiddle, Except.bind]
  split
  · exact .inl rfl
  · rename_i noCRC
    split
    · rename_i withSize
      rw [if_pos enlarged.allocated]
      refine .inr ⟨_, rfl, enlarged.toAllocated.store _ _, fun isAllocated =>
        ⟨position isAllocated, fun i isBody inside => ?_⟩⟩
      have isHeader : middle.headerSize = 8 := by
        simp [headerSize, noCRC, withSize]
      have header := enlarged.header
      have outside : ¬ (middle.header ≤ i ∧
          i < middle.header + (toBytes 8 (difference middle.curr middle.body)).length) := by
        rw [length_toBytes]
        omega
      simp only [Buffer.store, if_neg outside]
      exact enlarged.mem isAllocated i inside
    · exact .inr ⟨_, rfl, enlarged.toAllocated, fun isAllocated =>
        ⟨position isAllocated, fun i _ inside => enlarged.mem isAllocated i inside⟩⟩

theorem Ready.finalizePack_refused (ready : b.Ready) (isEmpty : b.allocated = false) :
    (b.addCRC = true → b.finalizePack false = .error .aborted) ∧
      (b.addCRC = false → Lost (b.finalizePack false) ∨
        ∃ next, b.finalizePack false = .ok next ∧ ¬ next.Consistent) := by
  have consistent := ready.consistent
  rw [Consistent, isEmpty, if_neg Bool.false_ne_true] at consistent
  obtain ⟨-, -, header, size⟩ := consistent
  obtain ⟨next, isNext, notAllocated, body, same⟩ :=
    (ensureCapacity_refused isEmpty size 0).2 (by rw [header]; decide)
  rw [Buffer.finalizePack, isEmpty]
  simp only [Bool.false_eq_true, if_false, isNext, Except.bind, notAllocated]
  refine ⟨fun isCRC => if_pos (same.trans isCRC), fun noCRC => ?_⟩
  rw [same, noCRC, if_neg Bool.false_ne_true]
  split
  · exact .inl (.inr rfl)
  · exact .inr ⟨next, rfl, not_consistent notAllocated body⟩

end Buffer

namespace Session

structure Ready (s : Session) : Prop where
  buffer : s.buffer.Ready
  kept : s.Kept
  inside : ∀ i byte, s.written i = some byte →
    s.buffer.allocated = true ∧ maxHeaderSize ≤ i ∧ i < s.buffer.curr

theorem start_ready (addCRC addSize : Bool) : (start addCRC addSize).Ready where
  buffer := Buffer.create_ready addCRC addSize
  kept := nofun
  inside := nofun

variable {s : Session}

theorem Ready.step {next : Buffer} (ready : s.Ready) (valid : next.Ready)
    (keeps : s.buffer.allocated = true → next.allocated = true ∧ s.buffer.curr ≤ next.curr ∧
      ∀ i, maxHeaderSize ≤ i → i < s.buffer.curr → next.mem i = s.buffer.mem i) :
    ({ s with buffer := next } : Session).Ready where
  buffer := valid
  kept i byte isWritten := by
    obtain ⟨isAllocated, isBody, inside⟩ := ready.inside i byte isWritten
    obtain ⟨-, -, same⟩ := keeps isAllocated
    exact (same i isBody inside).trans (ready.kept i byte isWritten)
  inside i byte isWritten := by
    obtain ⟨isAllocated, isBody, inside⟩ := ready.inside i byte isWritten
    obtain ⟨stillAllocated, further, -⟩ := keeps isAllocated
    exact ⟨stillAllocated, isBody, inside.trans_le further⟩

theorem sound_of_ok {call : Call} {region : Option (Nat × Nat)} {next : Session}
    (performed : s.perform call = .ok (region, next)) (ready : next.Ready)
    (inside : ∀ pos len, region = some (pos, len) →
      next.buffer.allocated = true ∧ pos + len ≤ next.buffer.size) : s.Sound call := by
  rw [Sound, performed]
  exact ⟨ready.buffer.consistent, ready.kept, inside⟩

theorem not_sound_of_lost {call : Call} (lost : Buffer.Lost (s.perform call)) :
    ¬ s.Sound call := by
  intro sound
  rcases lost with isEndless | isCrashed
  · rw [Sound, isEndless] at sound
    exact sound
  · rw [Sound, isCrashed] at sound
    exact sound

theorem not_sound_of_ok {call : Call} {region : Option (Nat × Nat)} {next : Session}
    (performed : s.perform call = .ok (region, next)) (wrong : ¬ next.buffer.Consistent) :
    ¬ s.Sound call := by
  intro sound
  rw [Sound, performed] at sound
  exact wrong sound.1

structure Exact (s : Session) (call : Call) : Prop where
  sound : s.Fits call → s.Sound call
  ready : s.Fits call → ∀ region next, s.perform call = .ok (region, next) → next.Ready
  fits : s.Sound call → s.Fits call

theorem exact_of_ready {call : Call} {region : Option (Nat × Nat)} {next : Session}
    (fits : s.Fits call) (performed : s.perform call = .ok (region, next)) (ready : next.Ready)
    (inside : ∀ pos len, region = some (pos, len) →
      next.buffer.allocated = true ∧ pos + len ≤ next.buffer.size) : s.Exact call where
  sound _ := sound_of_ok performed ready inside
  ready _ other after isOther := by
    rw [performed] at isOther
    cases isOther
    exact ready
  fits _ := fits

theorem exact_of_none {call : Call} {next : Session} (fits : s.Fits call)
    (performed : s.perform call = .ok (none, next)) (ready : next.Ready) : s.Exact call :=
  exact_of_ready fits performed ready fun _ _ => by rintro ⟨⟩

theorem exact_of_not {call : Call} (large : ¬ s.Fits call) (unsound : ¬ s.Sound call) :
    s.Exact call where
  sound fits := absurd fits large
  ready fits := absurd fits large
  fits sound := absurd sound unsound

theorem Ready.acquired {next : Buffer} {len : Nat} (ready : s.Ready)
    (acquired : Buffer.Acquired s.buffer next len) :
    ({ s with buffer := next } : Session).Ready := by
  refine ready.step acquired.ready fun isAllocated => ⟨acquired.allocated, ?_, fun i _ inside =>
    acquired.mem isAllocated i inside⟩
  rw [acquired.position, if_pos isAllocated]
  exact Nat.le_add_right _ _

theorem exact_acquire (ready : s.Ready) (call : Call) (len : Size)
    (performed : s.perform call = (s.buffer.acquire call.granted len).map fun found =>
      (some (found.1, (len : Nat)), { s with buffer := found.2 }))
    (fits : s.Fits call ↔
      if s.buffer.allocated then
        s.buffer.curr + len ≤ 2 ^ 63 ∧
          (call.granted = true ∨ s.buffer.curr + len ≤ s.buffer.size)
      else call.granted = true ∧ len.val ≤ 2 ^ 63 ∧
        len + maxHeaderSize ≤ max 64 (2 ^ Nat.clog 2 len)) :
    s.Exact call := by
  have handedOut : ∀ pos next, s.buffer.acquire call.granted len = .ok (pos, next) →
      Buffer.Acquired s.buffer next len → pos + len = next.curr → s.Fits call →
        s.Exact call := by
    intro pos next isNext acquired position isFit
    rw [isNext] at performed
    refine exact_of_ready isFit performed (ready.acquired acquired) ?_
    rintro _ _ ⟨⟩
    exact ⟨acquired.allocated, position ▸ acquired.currLe⟩
  have refused : ∀ pos, (Buffer.Lost (s.buffer.acquire call.granted len) ∨
      ∃ next, s.buffer.acquire call.granted len = .ok (pos, next) ∧ next.size < pos + len) →
      ¬ s.Sound call := by
    rintro pos (lost | ⟨next, isNext, outside⟩) sound
    · exact not_sound_of_lost (performed ▸ lost.map _) sound
    · rw [Sound, performed, isNext] at sound
      obtain ⟨-, inside⟩ := sound.2.2 pos len rfl
      exact absurd inside (Nat.not_le.mpr outside)
  rcases ready.buffer.cases with valid | ⟨isEmpty, curr, body, header, size⟩
  · rw [if_pos valid.allocated] at fits
    by_cases small : s.buffer.curr + len ≤ 2 ^ 63 ∧
      (call.granted = true ∨ s.buffer.curr + len ≤ s.buffer.size)
    · obtain ⟨next, isNext, acquired⟩ := valid.acquire small.1 small.2
      refine handedOut _ next isNext acquired ?_ (fits.mpr small)
      rw [acquired.position, if_pos valid.allocated]
    · refine exact_of_not (fun isFit => small (fits.mp isFit))
        (refused _ (valid.acquire_outside ?_))
      rcases Nat.lt_or_ge (2 ^ 63) (s.buffer.curr + len) with large | isSmall
      · exact .inl large
      · obtain ⟨notGranted, larger⟩ := not_or.mp fun has => small ⟨isSmall, has⟩
        exact .inr ⟨Bool.eq_false_iff.mpr notGranted, Nat.not_le.mp larger⟩
  · rw [isEmpty, if_neg Bool.false_ne_true] at fits
    cases isGranted : call.granted with
    | false =>
        refine exact_of_not (fun isFit => ?_) ?_
        · have granted := (fits.mp isFit).1
          rw [isGranted] at granted
          cases granted
        · rw [isGranted] at performed
          rcases Buffer.acquire_refused isEmpty size len with
            lost | ⟨pos, next, isNext, notAllocated, isBody⟩
          · exact not_sound_of_lost (performed ▸ lost.map _)
          · rw [isNext] at performed
            exact not_sound_of_ok performed (Buffer.not_consistent notAllocated isBody)
    | true =>
        rw [isGranted] at handedOut refused fits
        obtain ⟨inside, outside⟩ :=
          Buffer.acquire_of_empty isEmpty curr body header size len.isLt
        by_cases small : len.val ≤ 2 ^ 63 ∧ len + maxHeaderSize ≤ max 64 (2 ^ Nat.clog 2 len)
        · obtain ⟨next, isNext, acquired⟩ := inside small.1 small.2
          refine handedOut _ next isNext acquired ?_ (fits.mpr ⟨rfl, small⟩)
          rw [acquired.position, isEmpty]
          rfl
        · refine exact_of_not (fun isFit => small (fits.mp isFit).2) (refused _ (outside ?_))
          rcases Nat.lt_or_ge (2 ^ 63) len.val with large | isSmall
          · exact .inl large
          · exact .inr (Nat.not_le.mp fun enough => small ⟨isSmall, enough⟩)

theorem exact_ensureCapacity (ready : s.Ready) (granted : Bool) (n : Size) :
    s.Exact ⟨.ensureCapacity n, granted⟩ := by
  have enlarged : ∀ next, s.buffer.ensureCapacity granted n = .ok next →
      Buffer.Enlarged s.buffer next → s.Fits ⟨.ensureCapacity n, granted⟩ →
      s.Exact ⟨.ensureCapacity n, granted⟩ := by
    intro next isNext enlarged isFit
    refine exact_of_none isFit (by simp only [perform, isNext]; rfl) (ready.step enlarged.ready ?_)
    intro isAllocated
    refine ⟨enlarged.allocated, ?_, fun i _ inside => enlarged.mem isAllocated i inside⟩
    rw [enlarged.position, if_pos isAllocated]
  have refused : Buffer.Lost (s.buffer.ensureCapacity granted n) →
      ¬ s.Sound ⟨.ensureCapacity n, granted⟩ :=
    fun lost => not_sound_of_lost (lost.map _)
  by_cases small : s.Fits ⟨.ensureCapacity n, granted⟩
  · obtain ⟨isSmall, has⟩ := id small
    rcases ready.buffer.cases with valid | ⟨isEmpty, curr, body, header, size⟩
    · obtain ⟨next, isNext, isEnlarged, -⟩ :=
        (valid.ensureCapacity granted n).1 isSmall (has.imp_right And.right)
      exact enlarged next isNext isEnlarged small
    · obtain rfl : granted = true := has.resolve_right fun positive => by omega
      rw [header, Nat.add_zero, Nat.mod_eq_of_lt n.isLt] at isSmall
      obtain ⟨next, isNext, isEnlarged, -⟩ :=
        (Buffer.ensureCapacity_of_empty isEmpty curr body header size n.isLt).1 isSmall
      exact enlarged next isNext isEnlarged small
  · refine exact_of_not small ?_
    rcases Nat.lt_or_ge (2 ^ 63) ((n + s.buffer.header) % 2 ^ 64) with large | isSmall
    · rcases ready.buffer.cases with valid | ⟨isEmpty, curr, body, header, size⟩
      · exact refused ((valid.ensureCapacity granted n).2 (.inl large))
      · rw [header, Nat.add_zero, Nat.mod_eq_of_lt n.isLt] at large
        exact refused ((Buffer.ensureCapacity_of_empty isEmpty curr body header size n.isLt).2
          large granted)
    · obtain ⟨notGranted, notEnough⟩ := not_or.mp fun has => small ⟨isSmall, has⟩
      obtain rfl : granted = false := Bool.eq_false_iff.mpr notGranted
      rcases ready.buffer.cases with valid | ⟨isEmpty, curr, body, header, size⟩
      · have sizes := valid.size_le
        exact refused ((valid.ensureCapacity false n).2 (.inr ⟨rfl, by omega⟩))
      · obtain ⟨next, isNext, notAllocated, isBody, -⟩ :=
          (Buffer.ensureCapacity_refused isEmpty size n).2 isSmall
        have performed : s.perform ⟨.ensureCapacity n, false⟩ =
            .ok (none, { s with buffer := next }) := by
          simp only [perform, isNext]
          rfl
        exact not_sound_of_ok performed (Buffer.not_consistent notAllocated isBody)

theorem exact_reset (ready : s.Ready) (granted addCRC addSize forceNonEmpty : Bool) :
    s.Exact ⟨.reset addCRC addSize forceNonEmpty, granted⟩ := by
  by_cases fits : s.Fits ⟨.reset addCRC addSize forceNonEmpty, granted⟩
  · obtain ⟨next, isNext, isReady⟩ := ready.buffer.reset fits addCRC addSize
    refine exact_of_none fits (by simp only [perform, isNext]; rfl) ⟨isReady, ?_, ?_⟩
    · rintro i byte ⟨⟩
    · rintro i byte ⟨⟩
  · obtain ⟨notGranted, other⟩ := not_or.mp fits
    obtain ⟨notAllocated, forced⟩ := not_or.mp other
    obtain rfl : granted = false := Bool.eq_false_iff.mpr notGranted
    obtain rfl : forceNonEmpty = true := Bool.eq_true_of_not_eq_false forced
    refine exact_of_not fits ?_
    rcases ready.buffer.reset_refused (Bool.eq_false_iff.mpr notAllocated) addCRC addSize with
      lost | ⟨next, isNext, wrong⟩
    · exact not_sound_of_lost (lost.map _)
    · have performed : s.perform ⟨.reset addCRC addSize true, false⟩ =
          .ok (none, { buffer := next, written := fun _ => none }) := by
        simp only [perform, isNext]
        rfl
      exact not_sound_of_ok performed wrong

theorem exact_finalizePack (ready : s.Ready) (granted : Bool) :
    s.Exact ⟨.finalizePack, granted⟩ := by
  have aborts : s.buffer.finalizePack granted = .error .aborted →
      s.Fits ⟨.finalizePack, granted⟩ → s.Exact ⟨.finalizePack, granted⟩ := by
    intro isAborted isFit
    have performed : s.perform ⟨.finalizePack, granted⟩ = .error .aborted := by
      simp only [perform, isAborted]
      rfl
    refine ⟨fun _ => by rw [Sound, performed]; trivial, ?_, fun _ => isFit⟩
    intro _ region next isNext
    rw [performed] at isNext
    cases isNext
  by_cases has : granted = true ∨ s.buffer.allocated = true
  · have isFit : s.Fits ⟨.finalizePack, granted⟩ := has.imp_right .inl
    rcases ready.buffer.finalizePack has with isAborted | ⟨next, isNext, valid, keeps⟩
    · exact aborts isAborted isFit
    · refine exact_of_none isFit (by simp only [perform, isNext]; rfl) (ready.step valid.ready ?_)
      intro isAllocated
      obtain ⟨position, same⟩ := keeps isAllocated
      exact ⟨valid.allocated, position.ge, same⟩
  · obtain ⟨notGranted, notAllocated⟩ := not_or.mp has
    obtain rfl : granted = false := Bool.eq_false_iff.mpr notGranted
    obtain ⟨withCRC, withoutCRC⟩ :=
      ready.buffer.finalizePack_refused (Bool.eq_false_iff.mpr notAllocated)
    cases isCRC : s.buffer.addCRC with
    | true => exact aborts (withCRC isCRC) (.inr (.inr isCRC))
    | false =>
        refine exact_of_not (fun isFit => ?_) ?_
        · rcases isFit with granted | isAllocated | addCRC
          · exact notGranted granted
          · exact notAllocated isAllocated
          · rw [isCRC] at addCRC
            cases addCRC
        · rcases withoutCRC isCRC with lost | ⟨next, isNext, wrong⟩
          · exact not_sound_of_lost (lost.map _)
          · have performed : s.perform ⟨.finalizePack, false⟩ =
                .ok (none, { s with buffer := next }) := by
              simp only [perform, isNext]
              rfl
            exact not_sound_of_ok performed wrong

theorem exact_write (ready : s.Ready) (granted : Bool) (pos : Nat) (byte : UInt8) :
    s.Exact ⟨.write pos byte, granted⟩ := by
  by_cases inside : s.buffer.body ≤ pos ∧ pos < s.buffer.curr
  · have performed : s.perform ⟨.write pos byte, granted⟩ = .ok (none,
        { buffer := s.buffer.store pos [byte]
          written := Function.update s.written pos (some byte) }) := if_pos inside
    refine exact_of_none trivial performed ?_
    rcases ready.buffer.cases with valid | ⟨-, curr, -, -, -⟩
    · refine ⟨(valid.store pos [byte]).ready, ?_, ?_⟩
      · intro i value isWritten
        by_cases same : i = pos
        · subst same
          simp only [Function.update_self] at isWritten
          simp [Buffer.store, isWritten]
        · simp only [Function.update_of_ne same] at isWritten
          have elsewhere : ¬ (pos ≤ i ∧ i < pos + [byte].length) := by
            simp only [List.length_singleton]
            omega
          simp only [Buffer.store, if_neg elsewhere]
          exact ready.kept i value isWritten
      · intro i value isWritten
        by_cases same : i = pos
        · subst same
          exact ⟨valid.allocated, valid.body ▸ inside.1, inside.2⟩
        · simp only [Function.update_of_ne same] at isWritten
          exact ready.inside i value isWritten
    · omega
  · have performed : s.perform ⟨.write pos byte, granted⟩ = .ok (none, s) := if_neg inside
    exact exact_of_none trivial performed ready

theorem Ready.exact (ready : s.Ready) (call : Call) : s.Exact call := by
  obtain ⟨op, granted⟩ := call
  cases op with
  | reset addCRC addSize forceNonEmpty =>
      exact exact_reset ready granted addCRC addSize forceNonEmpty
  | acquire len => exact exact_acquire ready _ len rfl Iff.rfl
  | reserve len => exact exact_acquire ready _ len rfl Iff.rfl
  | ensureCapacity n => exact exact_ensureCapacity ready granted n
  | finalizePack => exact exact_finalizePack ready granted
  | write pos byte => exact exact_write ready granted pos byte

theorem Ready.along_iff (ready : s.Ready) (calls : List Call) :
    s.Along Sound calls ↔ s.Along Fits calls := by
  induction calls generalizing s with
  | nil => exact Iff.rfl
  | cons call calls inductionHypothesis =>
      have isExact := ready.exact call
      constructor
      · rintro ⟨sound, rest⟩
        have fits := isExact.fits sound
        exact ⟨fits, fun region next performed =>
          (inductionHypothesis (isExact.ready fits region next performed)).mp
            (rest region next performed)⟩
      · rintro ⟨fits, rest⟩
        exact ⟨isExact.sound fits, fun region next performed =>
          (inductionHypothesis (isExact.ready fits region next performed)).mpr
            (rest region next performed)⟩

end Session

/-- The bounds of a buffer are kept in a sequence of operations if and only if no size
overflows, memory is returned when it is asked for, and what is acquired first leaves room for
the header in the first power of two which is large enough. -/
theorem buffer_bounds (addCRC addSize : Bool) (calls : List Call) :
    (Session.start addCRC addSize).Along Session.Sound calls ↔
      (Session.start addCRC addSize).Along Session.Fits calls :=
  (Session.start_ready addCRC addSize).along_iff calls

/-- The first 64 bytes which are acquired end behind an allocation of 64 bytes. -/
theorem buffer_overrun :
    ¬ (Session.start false false).Along Session.Sound [⟨.acquire 64, true⟩] := by
  rintro ⟨sound, -⟩
  simp [Session.Sound, Session.perform, Session.start, Buffer.create, Buffer.acquire,
    Buffer.ensureCapacity, difference, grow, Except.map, Except.bind, maxHeaderSize, crcSize]
    at sound

end CnC.Serialize
