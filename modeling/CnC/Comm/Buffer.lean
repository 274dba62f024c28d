import Mathlib.Tactic

/-!
# Message buffers

A buffer keeps room for the largest header in front of the body, and grows by doubling.
Positions are given relative to the begin of the allocation.  No CRC is added, so that the
header has only the size of the body.
-/

namespace CnC.Comm

abbrev Bytes := List UInt8

/-- `MAX_HEADER_SIZE`. -/
def maxHeaderSize : Nat := 16

/-- `sizeField` is stored in the bytes before the body, and `content` in those from the begin
of the body on. -/
structure Buffer where
  size : Nat
  curr : Nat
  body : Nat
  header : Nat
  addSize : Bool
  sizeField : Nat
  content : Bytes

namespace Buffer

def create : Buffer :=
  { size := 0, curr := 0, body := 0, header := 0, addSize := false, sizeField := 0, content := [] }

def headerSize (b : Buffer) : Nat :=
  if b.addSize then 8 else 0

def capacity (b : Buffer) : Nat :=
  b.size - b.header

def grow (size newSz : Nat) : Nat :=
  if 0 < size ∧ size * 2 < newSz then grow (size * 2) newSz else size * 2
termination_by newSz - size

/-- A new allocation gets what is before the current position. -/
def ensureCapacity (b : Buffer) (newSz : Nat) : Buffer :=
  let newSz := newSz + b.header
  if newSz ≤ b.size ∧ 0 < b.size then b
  else
    let oldSz := b.curr - b.body
    { b with
      size := grow (if b.size = 0 then 32 else b.size) newSz
      body := maxHeaderSize
      header := maxHeaderSize - b.headerSize
      curr := maxHeaderSize + oldSz
      content := b.content.take oldSz }

def acquire (b : Buffer) (len : Nat) : Buffer :=
  let oldSz := b.curr - b.header
  let b := b.ensureCapacity (oldSz + len)
  { b with curr := b.curr + len }

/-- `reset` with `forceNonEmpty`, as in `set_mode_unpack`. -/
def reset (b : Buffer) (addSize : Bool) : Buffer :=
  let b := { b with addSize := addSize, curr := b.body }
  let b := b.acquire (2 * maxHeaderSize)
  { b with body := maxHeaderSize, header := maxHeaderSize - b.headerSize, curr := maxHeaderSize }

def receive (b : Buffer) (sizeField : Nat) (content : Bytes) : Buffer :=
  { b with sizeField := sizeField, content := content }

/-- What is between the begin of the body and the current position. -/
def bodyBytes (b : Buffer) : Bytes :=
  b.content.take (b.curr - b.body)

/-- `BUFF_SIZE`. -/
def buffSize : Nat := 2 ^ 23 - maxHeaderSize

def initial : Buffer :=
  (create.ensureCapacity buffSize).reset true

theorem grow_spec {size : Nat} (positive : 0 < size) (newSz : Nat) :
    ∃ j, grow size newSz = size * 2 ^ (j + 1) ∧ newSz ≤ grow size newSz ∧
      (j = 0 ∨ size * 2 ^ j < newSz) := by
  induction size using grow.induct newSz with
  | case1 size again inductionHypothesis =>
      obtain ⟨j, isGrown, enough, least⟩ := inductionHypothesis (by omega)
      have twice : ∀ n : Nat, size * 2 * 2 ^ n = size * 2 ^ (n + 1) := fun n => by ring
      rw [grow, if_pos again]
      refine ⟨j + 1, isGrown.trans (twice _), enough, .inr ?_⟩
      rcases least with rfl | least
      · simpa using again.2
      · rwa [twice] at least
  | case2 size enough =>
      rw [grow, if_neg enough]
      exact ⟨0, by ring, by omega, .inl rfl⟩

structure Valid (b : Buffer) : Prop where
  addSize : b.addSize = true
  body : b.body = 16
  header : b.header = 8
  atLeast : 2 ^ 23 ≤ b.size
  power : ∃ k, b.size = 2 ^ k
  atMost : b.size ≤ 2 ^ 32

/-- The current position is at the begin of the body. -/
structure Ready (b : Buffer) : Prop extends Valid b where
  curr : b.curr = 16

variable {b : Buffer} {n : Nat}

theorem Valid.size_cases (valid : b.Valid) : b.size ≤ 2 ^ 31 ∨ b.size = 2 ^ 32 := by
  obtain ⟨k, isPower⟩ := valid.power
  have atMost := valid.atMost
  rw [isPower] at atMost ⊢
  have bound : k ≤ 32 := (Nat.pow_le_pow_iff_right (by decide)).mp atMost
  by_cases isMax : k = 32
  · exact .inr (by rw [isMax])
  · exact .inl (Nat.pow_le_pow_right (by decide) (by omega))

theorem Valid.receive (valid : b.Valid) (sizeField : Nat) (content : Bytes) :
    (b.receive sizeField content).Valid :=
  ⟨valid.addSize, valid.body, valid.header, valid.atLeast, valid.power, valid.atMost⟩

theorem ensureCapacity_of_le (fits : n + b.header ≤ b.size) (positive : 0 < b.size) :
    b.ensureCapacity n = b :=
  if_pos ⟨fits, positive⟩

theorem acquire_of_le (ready : b.Ready) (fits : n + 16 ≤ b.size) :
    b.acquire n = { b with curr := 16 + n } := by
  have same : b.ensureCapacity (b.curr - b.header + n) = b := by
    refine ensureCapacity_of_le ?_ (by omega)
    rw [ready.curr, ready.header]
    omega
  rw [acquire, same, ready.curr]

theorem receive_acquire {content : Bytes} (ready : b.Ready) (fits : content.length + 16 ≤ b.size) :
    ((b.receive content.length content).acquire content.length).Valid ∧
      ((b.receive content.length content).acquire content.length).size = b.size ∧
        ((b.receive content.length content).acquire content.length).bodyBytes = content := by
  have received : (b.receive content.length content).Ready :=
    ⟨ready.toValid.receive content.length content, ready.curr⟩
  rw [acquire_of_le received fits]
  refine ⟨⟨ready.addSize, ready.body, ready.header, ready.atLeast, ready.power, ready.atMost⟩, rfl,
    ?_⟩
  simp [bodyBytes, receive, ready.body]

theorem acquire_of_lt (ready : b.Ready) (large : b.size < n + 16) :
    b.acquire n = { b with size := grow b.size (n + 16), curr := 16 + n, content := [] } := by
  obtain ⟨⟨addSize, body, header, atLeast, -, -⟩, curr⟩ := ready
  have newSz : 16 - 8 + n + 8 = n + 16 := by omega
  have enlarged : ¬ (n + 16 ≤ b.size ∧ 0 < b.size) := by omega
  have positive : b.size ≠ 0 := by omega
  simp only [acquire, ensureCapacity, curr, header, newSz, if_neg enlarged, if_neg positive, body,
    headerSize, addSize, maxHeaderSize]
  cases b
  simp_all

theorem le_size_acquire (ready : b.Ready) (n : Nat) : n + 16 ≤ (b.acquire n).size := by
  have atLeast := ready.atLeast
  by_cases fits : n + 16 ≤ b.size
  · rwa [acquire_of_le ready fits]
  · rw [acquire_of_lt ready (by omega)]
    obtain ⟨_, -, enough, -⟩ := grow_spec (show 0 < b.size by omega) (n + 16)
    exact enough

theorem sizeField_acquire (b : Buffer) (n : Nat) : (b.acquire n).sizeField = b.sizeField := by
  unfold acquire ensureCapacity
  simp only
  split <;> rfl

theorem acquire_spec (ready : b.Ready) (bounded : n + 8 < 2 ^ 31) :
    (b.acquire n).Valid ∧ (b.acquire n).curr = 16 + n ∧
      ((b.acquire n).size ≤ 2 ^ 31 ↔ b.size ≤ 2 ^ 31 ∧ n + 16 ≤ 2 ^ 31) := by
  obtain ⟨k, isPower⟩ := ready.power
  have atLeast := ready.atLeast
  by_cases fits : n + 16 ≤ b.size
  · rw [acquire_of_le ready fits]
    refine ⟨⟨ready.addSize, ready.body, ready.header, atLeast, ready.power, ready.atMost⟩, rfl, ?_⟩
    simp only
    omega
  · rw [acquire_of_lt ready (by omega)]
    obtain ⟨j, isGrown, enough, least⟩ := grow_spec (show 0 < b.size by omega) (n + 16)
    have half : 2 ^ (k + j) < n + 16 := by
      rcases least with rfl | least
      · simpa [← isPower] using fits
      · rwa [isPower, ← pow_add] at least
    have asPower : grow b.size (n + 16) = 2 ^ (k + j + 1) := by
      rw [isGrown, isPower, ← pow_add, add_assoc]
    have exponent : k + j ≤ 31 := by
      by_contra tooLarge
      have := Nat.pow_le_pow_right (show 0 < 2 by decide) (show 32 ≤ k + j by omega)
      omega
    refine ⟨⟨ready.addSize, ready.body, ready.header, ?_, ⟨_, asPower⟩, ?_⟩, rfl, ?_⟩
    · simp only
      omega
    · rw [asPower]
      exact Nat.pow_le_pow_right (by decide) (by omega)
    · have old : b.size ≤ 2 ^ 31 := by
        rw [isPower]
        exact Nat.pow_le_pow_right (by decide) (by omega)
      simp only
      refine ⟨fun small => ⟨old, by omega⟩, fun ⟨_, small⟩ => ?_⟩
      have : k + j < 31 := by
        by_contra tooLarge
        have := Nat.pow_le_pow_right (show 0 < 2 by decide) (show 31 ≤ k + j by omega)
        omega
      rw [asPower]
      exact Nat.pow_le_pow_right (by decide) (by omega)

theorem reset_eq (valid : b.Valid) (addSize : Bool) :
    b.reset addSize = { b with
      addSize := addSize, header := 16 - if addSize then 8 else 0, curr := 16 } := by
  obtain ⟨_, body, header, atLeast, -, -⟩ := valid
  have same : ensureCapacity { b with addSize := addSize, curr := b.body }
      (b.body - b.header + 2 * maxHeaderSize) = { b with addSize := addSize, curr := b.body } := by
    refine ensureCapacity_of_le ?_ ?_
    · simp only [body, header, maxHeaderSize]
      omega
    · simp only
      omega
  unfold reset acquire
  simp only
  rw [same]
  simp [headerSize, maxHeaderSize, body]

theorem Valid.reset (valid : b.Valid) :
    (b.reset b.addSize).Ready ∧ (b.reset b.addSize).size = b.size := by
  rw [reset_eq valid, valid.addSize]
  exact ⟨⟨⟨rfl, valid.body, rfl, valid.atLeast, valid.power, valid.atMost⟩, rfl⟩, rfl⟩

theorem initial_ready : initial.Ready ∧ initial.size = 2 ^ 23 := by
  have grown : grow 32 buffSize = 2 ^ 23 := by
    simp [grow, buffSize, maxHeaderSize]
  have isInitial : initial = {
      size := 2 ^ 23, curr := 16, body := 16, header := 8, addSize := true, sizeField := 0
      content := [] } := by
    simp [initial, create, reset, acquire, ensureCapacity, headerSize, grown, maxHeaderSize]
  rw [isInitial]
  exact ⟨⟨⟨rfl, rfl, rfl, le_rfl, ⟨23, rfl⟩, by simp⟩, rfl⟩, rfl⟩

end Buffer

end CnC.Comm
