import CnC.Serialize.RoundTrip

/-!
# Deferred packing

A place in a message is reserved, and its value is filled in after everything which follows it.
The offset of the place stays valid when the buffer grows.
-/

namespace CnC.Serialize

/-- `serializer::reserved`. -/
structure Reserved where
  pos : Nat
  sz : Nat

namespace Serializer

/-- Space for a bitwise serializable object of the given size. -/
def reserve (ser : Serializer) (size : Nat) : Option (Reserved × Serializer) :=
  (ser.buf.reserve true size).toOption.map fun (pos, b) =>
    ({ pos := pos, sz := size }, { ser with buf := b })

def complete (ser : Serializer) (r : Reserved) (bytes : Bytes) : Option Serializer :=
  if bytes.length = r.sz then some { ser with buf := ser.buf.store r.pos bytes } else none

end Serializer

def packDirect (before : List Obj) {size : Nat} (obj : Fin size → UInt8) (after : List Obj)
    (ser : Serializer) : Option Serializer :=
  (packAll before ser).bind fun ser =>
    (bitwise size [obj] ser).bind fun (_, ser) => packAll after ser

/-- The place of the object is reserved, and the object is copied to it in the end. -/
def packDeferred (before : List Obj) {size : Nat} (obj : Fin size → UInt8) (after : List Obj)
    (ser : Serializer) : Option Serializer :=
  (packAll before ser).bind fun ser =>
    (ser.reserve size).bind fun (r, ser) =>
      (packAll after ser).bind fun ser => ser.complete r (List.ofFn obj)

theorem bind_some {α β : Type} {x : Option α} {a : α} {f : α → Option β} {b : β}
    (isSome : x = some a) (next : f a = some b) : x.bind f = some b := by
  rw [isSome, Option.bind_some, next]

theorem map_some {α β : Type} {x : Option α} {a : α} (isSome : x = some a) (f : α → β) :
    x.map f = some (f a) := by
  rw [isSome, Option.map_some]

section Cells

variable {ser : Serializer} {cells : List (Option UInt8)}

theorem reserve_cells (hasCells : ser.buf.Cells cells) {size : Nat}
    (fits : maxHeaderSize + cells.length + size ≤ 2 ^ 63) :
    ∃ next new, ser.reserve size =
        some ({ pos := maxHeaderSize + cells.length, sz := size }, { ser with buf := next }) ∧
      new.length = size ∧ next.Cells (cells ++ new) := by
  obtain ⟨next, new, isNext, length, hasNext⟩ := hasCells.acquire fits
  refine ⟨next, new, ?_, length, hasNext⟩
  unfold Serializer.reserve Buffer.reserve
  rw [isNext, toOption_ok, Option.map_some, hasCells.position]

theorem complete_cells {middle rest : List (Option UInt8)} {bytes : Bytes}
    (hasCells : ser.buf.Cells (cells ++ middle ++ rest)) (same : middle.length = bytes.length) :
    ∃ next, ser.complete { pos := maxHeaderSize + cells.length, sz := bytes.length } bytes =
        some { ser with buf := next } ∧
      next.Cells (cells ++ bytes.map some ++ rest) :=
  ⟨_, if_pos rfl, hasCells.store same⟩

end Cells

theorem Buffer.Cells.bodyBytes {b : Buffer} {all : Bytes} (hasCells : b.Cells (all.map some)) :
    b.bodyBytes = some all :=
  hasCells.toAt.bodyBytes

section Packing

variable {ser : Serializer} {ids : Bytes} {before after : List Obj} {size : Nat}
  (obj : Fin size → UInt8)

theorem packDirect_body (isPack : ser.mode = .pack) (isAt : ser.buf.At ids ids.length)
    (packedBefore : before.all Obj.packable) (packedAfter : after.all Obj.packable)
    (fits : maxHeaderSize + ids.length + (before.flatMap Obj.encode).length + size +
      (after.flatMap Obj.encode).length ≤ 2 ^ 63) :
    ∃ packed, packDirect before obj after ser = some packed ∧ packed.buf.bodyBytes =
      some (ids ++ before.flatMap Obj.encode ++ List.ofFn obj ++ after.flatMap Obj.encode) := by
  obtain ⟨first, isFirst, isAtFirst⟩ := (@packAll_eq ser ids before isPack isAt (by omega)).1
    packedBefore
  have room : maxHeaderSize + ((ids ++ before.flatMap Obj.encode).map some).length +
      ([obj].flatMap List.ofFn).length ≤ 2 ^ 63 := by
    rw [List.length_map, List.length_append, List.flatMap_singleton, List.length_ofFn]
    omega
  obtain ⟨second, isSecond, hasSecond⟩ :=
    packs_bitwise [obj] { ser with buf := first } _ isPack isAtFirst.toCells room
  rw [← List.map_append, List.flatMap_singleton] at hasSecond
  have roomAfter : maxHeaderSize + (ids ++ before.flatMap Obj.encode ++ List.ofFn obj).length +
      (after.flatMap Obj.encode).length ≤ 2 ^ 63 := by
    rw [List.length_append, List.length_append, List.length_ofFn]
    omega
  obtain ⟨last, isLast, isAtLast⟩ :=
    (@packAll_eq { ser with buf := second } _ after isPack hasSecond.toAt roomAfter).1 packedAfter
  refine ⟨{ ser with buf := last }, ?_, isAtLast.bodyBytes⟩
  exact bind_some isFirst (bind_some isSecond isLast)

theorem packDeferred_body (isPack : ser.mode = .pack) (isAt : ser.buf.At ids ids.length)
    (packedBefore : before.all Obj.packable) (packedAfter : after.all Obj.packable)
    (fits : maxHeaderSize + ids.length + (before.flatMap Obj.encode).length + size +
      (after.flatMap Obj.encode).length ≤ 2 ^ 63) :
    ∃ packed, packDeferred before obj after ser = some packed ∧ packed.buf.bodyBytes =
      some (ids ++ before.flatMap Obj.encode ++ List.ofFn obj ++ after.flatMap Obj.encode) := by
  obtain ⟨first, isFirst, isAtFirst⟩ := (@packAll_eq ser ids before isPack isAt (by omega)).1
    packedBefore
  have room : maxHeaderSize + ((ids ++ before.flatMap Obj.encode).map some).length + size ≤
      2 ^ 63 := by
    rw [List.length_map, List.length_append]
    omega
  obtain ⟨second, new, isSecond, length, hasSecond⟩ :=
    @reserve_cells { ser with buf := first } _ isAtFirst.toCells size room
  have roomAfter : maxHeaderSize +
      ((ids ++ before.flatMap Obj.encode).map some ++ new).length +
      (after.flatMap Obj.encode).length ≤ 2 ^ 63 := by
    rw [List.length_append, length]
    rw [List.length_map, List.length_append] at room ⊢
    omega
  obtain ⟨third, isThird, hasThird⟩ :=
    (@packAll_cells { ser with buf := second } after _ isPack hasSecond roomAfter).1 packedAfter
  obtain ⟨last, isLast, hasLast⟩ := @complete_cells { ser with buf := third } _ new _
    (List.ofFn obj) hasThird (by rw [length, List.length_ofFn])
  rw [← List.map_append, ← List.map_append] at hasLast
  refine ⟨{ ser with buf := last }, ?_, hasLast.bodyBytes⟩
  rw [List.length_ofFn] at isLast
  exact bind_some isFirst (bind_some isSecond (bind_some isThird isLast))

theorem pack_none (isPack : ser.mode = .pack) (isAt : ser.buf.At ids ids.length)
    (notPacked : (before.all Obj.packable && after.all Obj.packable) = false)
    (fits : maxHeaderSize + ids.length + (before.flatMap Obj.encode).length + size +
      (after.flatMap Obj.encode).length ≤ 2 ^ 63) :
    packDirect before obj after ser = none ∧ packDeferred before obj after ser = none := by
  have first := @packAll_eq ser ids before isPack isAt (by omega)
  cases packedBefore : before.all Obj.packable with
  | false =>
      have fails := first.2 packedBefore
      exact ⟨by rw [packDirect, fails, Option.bind_none],
        by rw [packDeferred, fails, Option.bind_none]⟩
  | true =>
      have packedAfter : after.all Obj.packable = false := by simpa [packedBefore] using notPacked
      obtain ⟨first, isFirst, isAtFirst⟩ := first.1 packedBefore
      have length : ((ids ++ before.flatMap Obj.encode).map some).length =
          ids.length + (before.flatMap Obj.encode).length := by
        rw [List.length_map, List.length_append]
      have single : ([obj].flatMap List.ofFn).length = size := by
        rw [List.flatMap_singleton, List.length_ofFn]
      have room : maxHeaderSize + ((ids ++ before.flatMap Obj.encode).map some).length +
          ([obj].flatMap List.ofFn).length ≤ 2 ^ 63 := by
        rw [length, single]
        omega
      obtain ⟨direct, isDirect, hasDirect⟩ :=
        packs_bitwise [obj] { ser with buf := first } _ isPack isAtFirst.toCells room
      obtain ⟨deferred, new, isDeferred, newLength, hasDeferred⟩ :=
        @reserve_cells { ser with buf := first } _ isAtFirst.toCells size (by rwa [single] at room)
      have roomDirect : maxHeaderSize + ((ids ++ before.flatMap Obj.encode).map some ++
          ([obj].flatMap List.ofFn).map some).length + (after.flatMap Obj.encode).length ≤
          2 ^ 63 := by
        rw [List.length_append, length, List.length_map, single]
        omega
      have directFails := (@packAll_cells { ser with buf := direct } after _ isPack hasDirect
        roomDirect).2 packedAfter
      have roomDeferred : maxHeaderSize + ((ids ++ before.flatMap Obj.encode).map some ++
          new).length + (after.flatMap Obj.encode).length ≤ 2 ^ 63 := by
        rw [List.length_append, length, newLength]
        omega
      have deferredFails := (@packAll_cells { ser with buf := deferred } after _ isPack
        hasDeferred roomDeferred).2 packedAfter
      unfold packDirect packDeferred
      rw [isFirst, Option.bind_some, Option.bind_some, isDirect, isDeferred, Option.bind_some,
        Option.bind_some]
      refine ⟨directFails, ?_⟩
      simp only [deferredFails, Option.bind_none]

theorem deferred_eq_direct (isPack : ser.mode = .pack) (isAt : ser.buf.At ids ids.length)
    (fits : maxHeaderSize + ids.length + (before.flatMap Obj.encode).length + size +
      (after.flatMap Obj.encode).length ≤ 2 ^ 63) :
    (packDeferred before obj after ser).bind (fun ser => ser.buf.bodyBytes) =
      (packDirect before obj after ser).bind fun ser => ser.buf.bodyBytes := by
  cases packed : before.all Obj.packable && after.all Obj.packable with
  | true =>
      obtain ⟨packedBefore, packedAfter⟩ := (Bool.and_eq_true _ _).mp packed
      obtain ⟨direct, isDirect, directBody⟩ :=
        packDirect_body obj isPack isAt packedBefore packedAfter fits
      obtain ⟨deferred, isDeferred, deferredBody⟩ :=
        packDeferred_body obj isPack isAt packedBefore packedAfter fits
      rw [isDirect, isDeferred, Option.bind_some, Option.bind_some, directBody, deferredBody]
  | false =>
      obtain ⟨direct, deferred⟩ := pack_none obj isPack isAt packed fits
      rw [direct, deferred]

end Packing

end CnC.Serialize
