import CnC.Serialize.Serializer

/-!
# What a traversal does in each mode

The rules describe a part of a traversal by the bytes which it packs or unpacks, or by the
size which it adds.  A Boolean tells whether it has a result at all.
-/

namespace CnC.Serialize

/-- The body holds the bytes, and the current position is behind the first `k` of them. -/
structure Buffer.At (b : Buffer) (all : Bytes) (k : Nat) : Prop extends b.Allocated where
  fits : maxHeaderSize + all.length ≤ b.size
  holds : ∀ i, i < all.length → b.mem (maxHeaderSize + i) = all[i]?
  position : b.curr = maxHeaderSize + k
  passed : k ≤ all.length

/-- The body consists of the given cells, some of which have not been written. -/
structure Buffer.Cells (b : Buffer) (cells : List (Option UInt8)) : Prop extends b.Allocated where
  fits : maxHeaderSize + cells.length ≤ b.size
  holds : ∀ i, i < cells.length → some (b.mem (maxHeaderSize + i)) = cells[i]?
  position : b.curr = maxHeaderSize + cells.length

namespace Buffer

variable {b : Buffer} {all bytes : Bytes} {k : Nat} {cells : List (Option UInt8)}

theorem Allocated.acquire_inside (valid : b.Allocated) {len : Nat} (fits : b.curr + len ≤ b.size) :
    b.acquire true len = .ok (b.curr, { b with curr := b.curr + len }) := by
  have sizes := valid.size_le
  have enough : b.curr + len ≤ b.size ∧ 0 < b.size := by omega
  have position : (b.curr + len) % 2 ^ 64 = b.curr + len := Nat.mod_eq_of_lt (by omega)
  rw [Buffer.acquire, Buffer.ensureCapacity]
  simp only
  rw [valid.newSz (by omega), if_pos enough]
  simp only [Except.map, position]

theorem load_eq {pos : Nat} (holds : ∀ i, i < bytes.length → b.mem (pos + i) = bytes[i]?) :
    b.load pos bytes.length = some bytes := by
  induction bytes generalizing pos with
  | nil => rfl
  | cons byte bytes inductionHypothesis =>
      have first : b.mem pos = some byte := holds 0 (by simp)
      have rest : b.load (pos + 1) bytes.length = some bytes := by
        refine inductionHypothesis fun i inside => ?_
        have next := holds (i + 1) (by simpa using inside)
        rw [List.getElem?_cons_succ] at next
        rw [← next]
        congr 1
        omega
      rw [List.length_cons, load, first, Option.bind_some, rest]
      rfl

theorem At.toCells (isAt : b.At all all.length) : b.Cells (all.map some) := by
  refine ⟨isAt.toAllocated, ?_, fun i inside => ?_, ?_⟩
  · rw [List.length_map]
    exact isAt.fits
  · rw [List.length_map] at inside
    rw [isAt.holds i inside, List.getElem?_map, List.getElem?_eq_getElem inside]
    rfl
  · rw [List.length_map]
    exact isAt.position

theorem Cells.toAt (hasCells : b.Cells (all.map some)) : b.At all all.length := by
  have fits := hasCells.fits
  have holds := hasCells.holds
  have position := hasCells.position
  rw [List.length_map] at fits holds position
  refine ⟨hasCells.toAllocated, fits, fun i inside => ?_, position, le_rfl⟩
  have isCell := holds i inside
  rw [List.getElem?_map, List.getElem?_eq_getElem inside] at isCell
  rw [List.getElem?_eq_getElem inside]
  exact Option.some.inj isCell

theorem Cells.acquire (hasCells : b.Cells cells) {len : Nat}
    (fits : maxHeaderSize + cells.length + len ≤ 2 ^ 63) :
    ∃ next new, b.acquire true len = .ok (b.curr, next) ∧ new.length = len ∧
      next.Cells (cells ++ new) := by
  obtain ⟨next, isNext, acquired⟩ := Allocated.acquire hasCells.toAllocated
    (by rw [hasCells.position]; exact fits) (.inl rfl)
  have length : (List.ofFn fun i : Fin len =>
      next.mem (maxHeaderSize + cells.length + i)).length = len := List.length_ofFn ..
  have position : next.curr = maxHeaderSize + (cells.length + len) := by
    rw [acquired.position, if_pos hasCells.allocated, hasCells.position, Nat.add_assoc]
  refine ⟨next, _, isNext, length, acquired.toAllocated, ?_, fun i inside => ?_, ?_⟩
  · rw [List.length_append, length, ← position]
    exact acquired.currLe
  · rw [List.length_append, length] at inside
    by_cases old : i < cells.length
    · rw [acquired.mem hasCells.allocated _ (by rw [hasCells.position]; omega),
        List.getElem?_append_left old]
      exact hasCells.holds i old
    · rw [List.getElem?_append_right (by omega), List.getElem?_ofFn, dif_pos (by omega)]
      congr 2
      simp only
      omega
  · rw [List.length_append, length, position]

theorem Cells.store {before after middle : List (Option UInt8)}
    (hasCells : b.Cells (before ++ middle ++ after)) (same : middle.length = bytes.length) :
    (b.store (maxHeaderSize + before.length) bytes).Cells (before ++ bytes.map some ++ after) := by
  have lengths : (before ++ bytes.map some ++ after).length =
      (before ++ middle ++ after).length := by
    simp [same]
  refine ⟨hasCells.toAllocated.store _ _, ?_, fun i inside => ?_, ?_⟩
  · rw [lengths]
    exact hasCells.fits
  · rw [lengths] at inside
    have isCell := hasCells.holds i inside
    simp only [Buffer.store]
    by_cases stored : maxHeaderSize + before.length ≤ maxHeaderSize + i ∧
        maxHeaderSize + i < maxHeaderSize + before.length + bytes.length
    · rw [if_pos stored, List.getElem?_append_left (by simp; omega),
        List.getElem?_append_right (by omega), List.getElem?_map]
      have offset : maxHeaderSize + i - (maxHeaderSize + before.length) = i - before.length := by
        omega
      rw [offset, List.getElem?_eq_getElem (by omega)]
      rfl
    · rw [if_neg stored, isCell]
      by_cases isBefore : i < before.length
      · rw [List.append_assoc, List.append_assoc, List.getElem?_append_left isBefore,
          List.getElem?_append_left isBefore]
      · rw [List.getElem?_append_right (by simp; omega),
          List.getElem?_append_right (by simp; omega)]
        simp [same]
  · rw [lengths]
    exact hasCells.position

theorem Cells.append (hasCells : b.Cells cells)
    (fits : maxHeaderSize + cells.length + bytes.length ≤ 2 ^ 63) :
    ∃ next, b.acquire true bytes.length = .ok (b.curr, next) ∧
      (next.store b.curr bytes).Cells (cells ++ bytes.map some) := by
  obtain ⟨next, new, isNext, length, hasNext⟩ := hasCells.acquire fits
  refine ⟨next, isNext, ?_⟩
  have stored := @Cells.store next bytes cells [] new (by rwa [List.append_nil]) length
  rw [List.append_nil] at stored
  rw [hasCells.position]
  exact stored

theorem At.take (isAt : b.At all k) (isPrefix : bytes <+: all.drop k) :
    ∃ next, b.acquire true bytes.length = .ok (b.curr, next) ∧
      next.load b.curr bytes.length = some bytes ∧ next.At all (k + bytes.length) := by
  have inside : k + bytes.length ≤ all.length := by
    have shorter := isPrefix.length_le
    have := isAt.passed
    rw [List.length_drop] at shorter
    omega
  have fits := isAt.fits
  have enough : b.curr + bytes.length ≤ b.size := by
    rw [isAt.position]
    omega
  refine ⟨_, isAt.acquire_inside enough, ?_, ?_⟩
  · refine load_eq fun i isByte => ?_
    obtain ⟨rest, isRest⟩ := isPrefix
    have same : all[k + i]? = bytes[i]? := by
      rw [← List.getElem?_drop, ← isRest, List.getElem?_append_left isByte]
    have isByteOf : b.mem (b.curr + i) = all[k + i]? := by
      rw [isAt.position, Nat.add_assoc]
      exact isAt.holds (k + i) (by omega)
    exact isByteOf.trans same
  · refine ⟨⟨isAt.allocated, isAt.header, isAt.body, ?_, enough, isAt.power⟩, isAt.fits,
      isAt.holds, ?_, inside⟩
    · simp only [isAt.position]
      omega
    · simp only [isAt.position]
      omega

end Buffer

variable {α β : Type}

def Sizes (f : Serializer → Option (α × Serializer)) (x : α) (ok : Bool) (n : Nat) : Prop :=
  ∀ ser, ser.mode = .packedSize →
    f ser = if ok then some (x, { ser with packedSize := ser.packedSize + n }) else none

/-- The computation appends to the body, if 63 bits are enough for the positions. -/
def Packs (f : Serializer → Option (α × Serializer)) (x : α) (ok : Bool) (bytes : Bytes) : Prop :=
  ∀ ser cells, ser.mode = .pack → ser.buf.Cells cells →
    maxHeaderSize + cells.length + bytes.length ≤ 2 ^ 63 →
    if ok then
      ∃ next, f ser = some (x, { ser with buf := next }) ∧ next.Cells (cells ++ bytes.map some)
    else f ser = none

/-- The computation takes the next bytes of the body. -/
def Unpacks (f : Serializer → Option (α × Serializer)) (x : α) (ok : Bool) (bytes : Bytes) : Prop :=
  ∀ ser all k, ser.mode = .unpack → ser.buf.At all k → bytes <+: all.drop k →
    if ok then
      ∃ next, f ser = some (x, { ser with buf := next }) ∧ next.At all (k + bytes.length)
    else f ser = none

/-- The computation has a result when memory is released. -/
def Cleans (f : Serializer → Option (α × Serializer)) : Prop :=
  ∀ ser, ser.mode = .cleanup → ∃ x, f ser = some (x, ser)

variable {f : Serializer → Option (α × Serializer)} {x : α} {ok : Bool}
  {g : α × Serializer → Option (β × Serializer)} {y : β} {okRest : Bool} {bytes rest : Bytes}

theorem Sizes.bind {n m : Nat} (first : Sizes f x ok n)
    (second : Sizes (fun ser => g (x, ser)) y okRest m) :
    Sizes (fun ser => (f ser).bind g) y (ok && okRest) (n + m) := by
  intro ser isSize
  cases ok with
  | true =>
      have isFirst := first ser isSize
      have isSecond := second { ser with packedSize := ser.packedSize + n } isSize
      simp only [if_true] at isFirst
      simp only [isFirst, Option.bind_some, Bool.true_and, isSecond, Nat.add_assoc]
  | false =>
      have isFirst := first ser isSize
      simp only [Bool.false_eq_true, if_false] at isFirst
      simp [isFirst]

theorem Packs.bind (first : Packs f x ok bytes)
    (second : Packs (fun ser => g (x, ser)) y okRest rest) :
    Packs (fun ser => (f ser).bind g) y (ok && okRest) (bytes ++ rest) := by
  intro ser cells isPack hasCells fits
  rw [List.length_append] at fits
  have isFirst := first ser cells isPack hasCells (by omega)
  cases ok with
  | true =>
      obtain ⟨middle, isMiddle, hasMiddle⟩ := isFirst
      have isSecond := second { ser with buf := middle } _ isPack hasMiddle
        (by rw [List.length_append, List.length_map]; omega)
      rw [List.append_assoc, ← List.map_append] at isSecond
      simp only [isMiddle, Option.bind_some, Bool.true_and]
      exact isSecond
  | false =>
      simp only [Bool.false_eq_true, if_false] at isFirst
      simp [isFirst]

theorem Unpacks.bind_false (first : Unpacks f x false bytes) :
    Unpacks (fun ser => (f ser).bind g) y false (bytes ++ rest) := by
  intro ser all k isUnpack isAt isPrefix
  have isFirst := first ser all k isUnpack isAt ((List.prefix_append bytes rest).trans isPrefix)
  simp only [Bool.false_eq_true, if_false] at isFirst
  simp [isFirst]

theorem Unpacks.bind (first : Unpacks f x ok bytes)
    (second : Unpacks (fun ser => g (x, ser)) y okRest rest) :
    Unpacks (fun ser => (f ser).bind g) y (ok && okRest) (bytes ++ rest) := by
  cases ok with
  | true =>
      intro ser all k isUnpack isAt isPrefix
      obtain ⟨middle, isMiddle, isAtMiddle⟩ :=
        first ser all k isUnpack isAt ((List.prefix_append bytes rest).trans isPrefix)
      have further : rest <+: all.drop (k + bytes.length) := by
        obtain ⟨last, isLast⟩ := isPrefix
        refine ⟨last, ?_⟩
        rw [← List.drop_drop, ← isLast, List.append_assoc, List.drop_left]
      have isSecond := second { ser with buf := middle } all _ isUnpack isAtMiddle further
      rw [Nat.add_assoc, ← List.length_append] at isSecond
      simp only [isMiddle, Option.bind_some, Bool.true_and]
      exact isSecond
  | false => exact first.bind_false

theorem Sizes.map {n : Nat} (first : Sizes f x ok n) (result : α → β) :
    Sizes (fun ser => (f ser).map fun r => (result r.1, r.2)) (result x) ok n := by
  intro ser isSize
  have isFirst := first ser isSize
  cases ok with
  | true =>
      simp only [if_true] at isFirst
      simp [isFirst]
  | false =>
      simp only [Bool.false_eq_true, if_false] at isFirst
      simp [isFirst]

theorem Packs.map (first : Packs f x ok bytes) (result : α → β) :
    Packs (fun ser => (f ser).map fun r => (result r.1, r.2)) (result x) ok bytes := by
  intro ser cells isPack hasCells fits
  have isFirst := first ser cells isPack hasCells fits
  cases ok with
  | true =>
      obtain ⟨next, isNext, hasNext⟩ := isFirst
      exact ⟨next, by simp only [isNext, Option.map_some], hasNext⟩
  | false =>
      simp only [Bool.false_eq_true, if_false] at isFirst
      simp [isFirst]

theorem Unpacks.map (first : Unpacks f x ok bytes) (result : α → β) :
    Unpacks (fun ser => (f ser).map fun r => (result r.1, r.2)) (result x) ok bytes := by
  intro ser all k isUnpack isAt isPrefix
  have isFirst := first ser all k isUnpack isAt isPrefix
  cases ok with
  | true =>
      obtain ⟨next, isNext, isAtNext⟩ := isFirst
      exact ⟨next, by simp only [isNext, Option.map_some], isAtNext⟩
  | false =>
      simp only [Bool.false_eq_true, if_false] at isFirst
      simp [isFirst]

theorem Cleans.bind (first : Cleans f) (second : ∀ x, Cleans fun ser => g (x, ser)) :
    Cleans fun ser => (f ser).bind g := by
  intro ser isCleanup
  obtain ⟨x, isFirst⟩ := first ser isCleanup
  obtain ⟨y, isSecond⟩ := second x ser isCleanup
  exact ⟨y, by simp only [isFirst, Option.bind_some, isSecond]⟩

theorem Cleans.map (first : Cleans f) (result : α → β) :
    Cleans fun ser => (f ser).map fun r => (result r.1, r.2) := by
  intro ser isCleanup
  obtain ⟨x, isFirst⟩ := first ser isCleanup
  exact ⟨result x, by simp only [isFirst, Option.map_some]⟩

theorem Sizes.pure (x : α) : Sizes (fun ser => some (x, ser)) x true 0 :=
  fun _ _ => rfl

theorem Packs.pure (x : α) : Packs (fun ser => some (x, ser)) x true [] := by
  intro ser cells _ hasCells _
  refine ⟨ser.buf, rfl, ?_⟩
  rw [List.map_nil, List.append_nil]
  exact hasCells

theorem Unpacks.pure (x : α) : Unpacks (fun ser => some (x, ser)) x true [] :=
  fun ser _ _ _ isAt _ => ⟨ser.buf, rfl, isAt⟩

theorem Sizes.congr {h : Serializer → Option (α × Serializer)} {n : Nat} (sizes : Sizes f x ok n)
    (same : ∀ ser, ser.mode = .packedSize → h ser = f ser) : Sizes h x ok n := by
  intro ser isSize
  rw [same ser isSize]
  exact sizes ser isSize

theorem Packs.congr {h : Serializer → Option (α × Serializer)} (packs : Packs f x ok bytes)
    (same : ∀ ser, ser.mode = .pack → h ser = f ser) : Packs h x ok bytes := by
  intro ser cells isPack hasCells fits
  rw [same ser isPack]
  exact packs ser cells isPack hasCells fits

theorem Unpacks.congr {h : Serializer → Option (α × Serializer)} (unpacks : Unpacks f x ok bytes)
    (same : ∀ ser, ser.mode = .unpack → h ser = f ser) : Unpacks h x ok bytes := by
  intro ser all k isUnpack isAt isPrefix
  rw [same ser isUnpack]
  exact unpacks ser all k isUnpack isAt isPrefix

theorem Cleans.congr {h : Serializer → Option (α × Serializer)} (cleans : Cleans f)
    (same : ∀ ser, ser.mode = .cleanup → h ser = f ser) : Cleans h := by
  intro ser isCleanup
  rw [same ser isCleanup]
  exact cleans ser isCleanup

theorem Unpacks.of_bound (unpacks : bytes.length < 2 ^ 63 → Unpacks f x ok bytes) :
    Unpacks f x ok bytes := by
  intro ser all k isUnpack isAt isPrefix
  refine unpacks ?_ ser all k isUnpack isAt isPrefix
  have shorter := isPrefix.length_le
  have fits := isAt.fits
  have sizes := isAt.size_le
  rw [List.length_drop] at shorter
  simp only [maxHeaderSize, crcSize] at fits
  omega

theorem fromBytes_toBytes (width n : Nat) : fromBytes (toBytes width n) = n % 256 ^ width := by
  induction width generalizing n with
  | zero => simp [toBytes, fromBytes, Nat.mod_one]
  | succ width inductionHypothesis =>
      rw [toBytes, fromBytes, inductionHypothesis, Nat.pow_succ', Nat.mod_mul]
      simp

theorem packBytes_of_acquire {ser : Serializer} {bytes : Bytes} {pos : Nat} {next : Buffer}
    (isNext : ser.buf.acquire true bytes.length = .ok (pos, next)) :
    ser.packBytes bytes = some { ser with buf := next.store pos bytes } := by
  unfold Serializer.packBytes
  rw [isNext]
  rfl

theorem unpackBytes_of_acquire {ser : Serializer} {bytes : Bytes} {pos : Nat} {next : Buffer}
    (isNext : ser.buf.acquire true bytes.length = .ok (pos, next))
    (loaded : next.load pos bytes.length = some bytes) :
    ser.unpackBytes bytes.length = some (bytes, { ser with buf := next }) := by
  unfold Serializer.unpackBytes
  rw [isNext]
  change (next.load pos bytes.length).map _ = _
  rw [loaded]
  rfl

theorem packs_packBytes (bytes : Bytes) (x : α) :
    Packs (fun ser => (ser.packBytes bytes).map fun ser => (x, ser)) x true bytes := by
  intro ser cells _ hasCells fits
  obtain ⟨next, isNext, hasNext⟩ := hasCells.append fits
  have packed := packBytes_of_acquire isNext
  exact ⟨_, by simp only [packed, Option.map_some], hasNext⟩

theorem unpacks_unpackBytes (bytes : Bytes) :
    Unpacks (fun ser => ser.unpackBytes bytes.length) bytes true bytes := by
  intro ser all k _ isAt isPrefix
  obtain ⟨next, isNext, loaded, isAtNext⟩ := isAt.take isPrefix
  exact ⟨next, unpackBytes_of_acquire isNext loaded, isAtNext⟩

theorem sizes_integer (width n : Nat) : Sizes (integer width n) n true width := by
  intro ser isSize
  simp only [integer, isSize, if_true]

theorem packs_integer (width n : Nat) :
    Packs (integer width n) n true (toBytes width n) := by
  refine (packs_packBytes (toBytes width n) n).congr fun ser isPack => ?_
  simp only [integer, isPack]

theorem unpacks_integer (width before n : Nat) :
    Unpacks (integer width before) (n % 256 ^ width) true (toBytes width n) := by
  have taken := (unpacks_unpackBytes (toBytes width n)).map fromBytes
  rw [fromBytes_toBytes] at taken
  refine taken.congr fun ser isUnpack => ?_
  simp only [integer, isUnpack, length_toBytes]

theorem cleans_integer (width n : Nat) : Cleans (integer width n) := by
  intro ser isCleanup
  exact ⟨n, by simp only [integer, isCleanup]⟩

theorem unpacks_length {n : Nat} (bounded : n < 2 ^ 64) (before : Nat) :
    Unpacks (integer 8 before) n true (toBytes 8 n) := by
  have taken := unpacks_integer 8 before n
  rw [Nat.mod_eq_of_lt (by omega)] at taken
  exact taken

theorem length_flatMap_ofFn {size : Nat} (arr : List (Fin size → UInt8)) :
    (arr.flatMap List.ofFn).length = arr.length * size := by
  induction arr with
  | nil => simp
  | cons obj arr inductionHypothesis =>
      rw [List.flatMap_cons, List.length_append, inductionHypothesis, List.length_ofFn,
        List.length_cons, Nat.succ_mul, Nat.add_comm]

theorem objects_flatMap {size : Nat} (arr : List (Fin size → UInt8)) :
    objects size arr.length (arr.flatMap List.ofFn) = arr := by
  induction arr with
  | nil => rfl
  | cons obj arr inductionHypothesis =>
      have first : (fun i : Fin size =>
          (List.ofFn obj ++ arr.flatMap List.ofFn).getD i 0) = obj := by
        funext i
        rw [List.getD_eq_getElem?_getD, List.getElem?_append_left (by simp)]
        simp
      have behind : (List.ofFn obj ++ arr.flatMap List.ofFn).drop size = arr.flatMap List.ofFn :=
        List.drop_left' (List.length_ofFn ..)
      rw [List.flatMap_cons, List.length_cons, objects, first, behind, inductionHypothesis]

theorem sizes_bitwise {size : Nat} (arr : List (Fin size → UInt8)) :
    Sizes (bitwise size arr) arr true (arr.length * size) := by
  intro ser isSize
  simp only [bitwise, isSize, if_true]

theorem packs_bitwise {size : Nat} (arr : List (Fin size → UInt8)) :
    Packs (bitwise size arr) arr true (arr.flatMap List.ofFn) := by
  refine (packs_packBytes (arr.flatMap List.ofFn) arr).congr fun ser isPack => ?_
  simp only [bitwise, isPack]

theorem unpacks_bitwise {size : Nat} {target arr : List (Fin size → UInt8)}
    (same : target.length = arr.length) :
    Unpacks (bitwise size target) arr true (arr.flatMap List.ofFn) := by
  have taken := (unpacks_unpackBytes (arr.flatMap List.ofFn)).map (objects size arr.length)
  rw [objects_flatMap] at taken
  refine taken.congr fun ser isUnpack => ?_
  simp only [bitwise, isUnpack, same, length_flatMap_ofFn]

theorem cleans_bitwise {size : Nat} (arr : List (Fin size → UInt8)) :
    Cleans (bitwise size arr) := by
  intro ser isCleanup
  exact ⟨arr, by simp only [bitwise, isCleanup]⟩

section Arrays

variable {serialize : Traversal α} {can : α → Bool}

theorem sizes_each {size : α → Nat}
    (sizes : ∀ obj, Sizes (serialize obj) obj (can obj) (size obj)) (arr : List α) :
    Sizes (each serialize arr) arr (arr.all can) (arr.map size).sum := by
  induction arr with
  | nil => exact .pure []
  | cons obj arr inductionHypothesis =>
      exact (sizes obj).bind (inductionHypothesis.map (obj :: ·))

theorem packs_each {encode : α → Bytes}
    (packs : ∀ obj, Packs (serialize obj) obj (can obj) (encode obj)) (arr : List α) :
    Packs (each serialize arr) arr (arr.all can) (arr.flatMap encode) := by
  induction arr with
  | nil => exact .pure []
  | cons obj arr inductionHypothesis =>
      exact (packs obj).bind (inductionHypothesis.map (obj :: ·))

theorem unpacks_each {encode : α → Bytes} {received : α → α} {packable : α → Bool}
    (unpacks : ∀ target obj, packable obj →
      Unpacks (serialize target) (received obj) (can obj) (encode obj))
    {target arr : List α} (same : target.length = arr.length) (packed : arr.all packable) :
    Unpacks (each serialize target) (arr.map received) (arr.all can) (arr.flatMap encode) := by
  induction arr generalizing target with
  | nil =>
      cases target with
      | nil => exact .pure []
      | cons first target => simp at same
  | cons obj arr inductionHypothesis =>
      cases target with
      | nil => simp at same
      | cons first target =>
          simp only [List.all_cons, Bool.and_eq_true] at packed
          have rest := @inductionHypothesis target (by simpa using same) packed.2
          exact (unpacks first obj packed.1).bind (rest.map (received obj :: ·))

theorem cleans_each {arr : List α} (cleans : ∀ obj ∈ arr, Cleans (serialize obj)) :
    Cleans (each serialize arr) := by
  induction arr with
  | nil => exact fun ser _ => ⟨[], rfl⟩
  | cons obj arr inductionHypothesis =>
      have rest := inductionHypothesis fun other isMember => cleans other (by simp [isMember])
      exact (cleans obj (by simp)).bind fun x => rest.map (x :: ·)

theorem Sizes.explicitly {arr : List α} {n : Nat}
    (sizes : Sizes (each serialize arr) arr ok n) :
    Sizes (explicitly serialize arr) arr ok n := by
  intro ser isSize
  have own := sizes (Serializer.create false false) rfl
  simp only [Serialize.explicitly, isSize, own]
  cases ok <;> simp [Serializer.create]

theorem Packs.explicitly {arr : List α} (packs : Packs (each serialize arr) arr ok bytes) :
    Packs (explicitly serialize arr) arr ok bytes :=
  packs.congr fun ser isPack => by simp only [Serialize.explicitly, isPack]

theorem Unpacks.explicitly {target arr : List α}
    (unpacks : Unpacks (each serialize target) arr ok bytes) :
    Unpacks (explicitly serialize target) arr ok bytes :=
  unpacks.congr fun ser isUnpack => by simp only [Serialize.explicitly, isUnpack]

theorem Cleans.explicitly {arr : List α} (cleans : Cleans (each serialize arr)) :
    Cleans (explicitly serialize arr) :=
  cleans.congr fun ser isCleanup => by simp only [Serialize.explicitly, isCleanup]

end Arrays

section Chunks

variable {apply : Traversal (List α)} {arr target : List α}

theorem Sizes.chunk {n : Nat} (sizes : Sizes (apply arr) arr ok n) :
    Sizes (chunk apply arr) arr ok (8 + n) := by
  have both : Sizes (fun ser => (integer 8 arr.length ser).bind fun r => apply arr r.2) arr ok
      (8 + n) := (sizes_integer 8 arr.length).bind sizes
  exact both.congr fun ser isSize => by simp only [Serialize.chunk, isSize]

theorem Packs.chunk (packs : Packs (apply arr) arr ok bytes) :
    Packs (chunk apply arr) arr ok (toBytes 8 arr.length ++ bytes) := by
  have both : Packs (fun ser => (integer 8 arr.length ser).bind fun r => apply arr r.2) arr ok
      (toBytes 8 arr.length ++ bytes) := (packs_integer 8 arr.length).bind packs
  exact both.congr fun ser isPack => by simp only [Serialize.chunk, isPack]

theorem Unpacks.chunk_of_length {arrLen : Nat} (bounded : arrLen < 2 ^ 64)
    (unpacks : Unpacks (fun ser =>
      if arrLen ≤ target.length then
        (apply (target.take arrLen) ser).map fun r => (r.1 ++ target.drop arrLen, r.2)
      else none) arr ok bytes) :
    Unpacks (chunk apply target) arr ok (toBytes 8 arrLen ++ bytes) := by
  have both : Unpacks (fun ser => (integer 8 0 ser).bind fun r =>
      if r.1 ≤ target.length then
        (apply (target.take r.1) r.2).map fun r' => (r'.1 ++ target.drop r.1, r'.2)
      else none) arr (true && ok) (toBytes 8 arrLen ++ bytes) :=
    (unpacks_length bounded 0).bind unpacks
  exact both.congr fun ser isUnpack => by simp only [Serialize.chunk, isUnpack]

theorem Unpacks.chunk (bounded : target.length < 2 ^ 64)
    (unpacks : Unpacks (apply target) arr ok bytes) :
    Unpacks (chunk apply target) arr ok (toBytes 8 target.length ++ bytes) := by
  have whole := unpacks.map fun objs => objs ++ target.drop target.length
  rw [List.drop_length, List.append_nil] at whole
  refine Unpacks.chunk_of_length bounded (whole.congr fun ser _ => ?_)
  rw [if_pos le_rfl, List.take_length, List.drop_length]

theorem unpacks_chunk_none (apply : Traversal (List α)) (arr : List α) {arrLen : Nat}
    (bounded : arrLen < 2 ^ 64) (tooMany : target.length < arrLen) :
    Unpacks (chunk apply target) arr false (toBytes 8 arrLen) := by
  have nothing : Unpacks (fun ser =>
      if arrLen ≤ target.length then
        (apply (target.take arrLen) ser).map fun r => (r.1 ++ target.drop arrLen, r.2)
      else none) arr false [] := by
    intro ser _ _ _ _ _
    simp only [Bool.false_eq_true, if_false]
    exact if_neg (Nat.not_le.mpr tooMany)
  have both := nothing.chunk_of_length bounded
  rwa [List.append_nil] at both

theorem Cleans.chunk (cleans : Cleans (apply arr)) : Cleans (chunk apply arr) :=
  cleans.congr fun ser isCleanup => by simp only [Serialize.chunk, isCleanup]

theorem Sizes.amp {obj : α} {n : Nat} (sizes : Sizes (apply [obj]) [obj] ok n) :
    Sizes (amp apply obj) obj ok n := by
  have both := sizes.bind (g := fun r => r.1.head?.map fun obj => (obj, r.2)) (.pure obj)
  rwa [Bool.and_true, Nat.add_zero] at both

theorem Packs.amp {obj : α} (packs : Packs (apply [obj]) [obj] ok bytes) :
    Packs (amp apply obj) obj ok bytes := by
  have both := packs.bind (g := fun r => r.1.head?.map fun obj => (obj, r.2)) (.pure obj)
  rwa [Bool.and_true, List.append_nil] at both

theorem Unpacks.amp {obj received : α} (unpacks : Unpacks (apply [obj]) [received] ok bytes) :
    Unpacks (amp apply obj) received ok bytes := by
  have both := unpacks.bind (g := fun r => r.1.head?.map fun obj => (obj, r.2)) (.pure received)
  rwa [Bool.and_true, List.append_nil] at both

end Chunks

theorem sizes_charChunk (str : Bytes) :
    Sizes (charChunk str) str true (8 + str.length) := by
  have chars := (sizes_bitwise (str.map fun char (_ : Fin 1) => char)).chunk.map
    fun arr => arr.map fun char => char 0
  simp only [List.map_map, Function.comp_def, List.map_id', List.length_map, Nat.mul_one] at chars
  exact chars

theorem flatMap_chars (str : Bytes) :
    (str.map fun char (_ : Fin 1) => char).flatMap List.ofFn = str := by
  induction str with
  | nil => rfl
  | cons char str inductionHypothesis => simp [List.flatMap_cons, inductionHypothesis]

theorem packs_charChunk (str : Bytes) :
    Packs (charChunk str) str true (toBytes 8 str.length ++ str) := by
  have chars := (packs_bitwise (str.map fun char (_ : Fin 1) => char)).chunk.map
    fun arr => arr.map fun char => char 0
  rw [flatMap_chars] at chars
  simp only [List.map_map, Function.comp_def, List.map_id', List.length_map] at chars
  exact chars

theorem unpacks_charChunk {target str : Bytes} (bounded : str.length < 2 ^ 64)
    (same : target.length = str.length) :
    Unpacks (charChunk target) str true (toBytes 8 str.length ++ str) := by
  have sameChars : (target.map fun char (_ : Fin 1) => char).length =
      (str.map fun char (_ : Fin 1) => char).length := by simpa using same
  have chars := ((unpacks_bitwise sameChars).chunk (by simpa [same] using bounded)).map
    fun arr => arr.map fun char => char 0
  rw [flatMap_chars] at chars
  simp only [List.map_map, Function.comp_def, List.map_id', List.length_map, same] at chars
  exact chars

theorem unpacks_charChunk_none {target str : Bytes} {arrLen : Nat} (bounded : arrLen < 2 ^ 64)
    (tooMany : target.length < arrLen) :
    Unpacks (charChunk target) str false (toBytes 8 arrLen) := by
  have tooManyChars : (target.map fun char (_ : Fin 1) => char).length < arrLen := by
    simpa using tooMany
  have chars := (unpacks_chunk_none (bitwise 1) (str.map fun char _ => char) bounded
    tooManyChars).map fun arr => arr.map fun char => char 0
  simp only [List.map_map, Function.comp_def, List.map_id'] at chars
  exact chars

theorem cleans_charChunk (str : Bytes) : Cleans (charChunk str) := by
  have chars := (cleans_bitwise (str.map fun char (_ : Fin 1) => char)).chunk
  exact chars.map fun arr => arr.map fun char => char 0

end CnC.Serialize
