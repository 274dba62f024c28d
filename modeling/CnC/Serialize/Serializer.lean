import Mathlib.Data.List.TakeWhile
import CnC.Serialize.Buffer

/-!
# Serializers

One traversal of an object serves four modes: the size of the packed object is computed, the
object is packed, it is unpacked, or its memory is released.  A traversal has no result where
it would leave an array, read what nobody has written or follow a null pointer.
-/

namespace CnC.Serialize

inductive Mode where
  | packedSize
  | pack
  | unpack
  | cleanup
  deriving DecidableEq

structure Serializer where
  buf : Buffer
  packedSize : Nat
  mode : Mode

abbrev Traversal (α : Type) := α → Serializer → Option (α × Serializer)

/-- `memcpy` from the given position. -/
def Buffer.load (b : Buffer) (pos : Nat) : Nat → Option Bytes
  | 0 => some []
  | n + 1 => (b.mem pos).bind fun byte => (b.load (pos + 1) n).map (byte :: ·)

/-- The unsigned integer of the given bytes. -/
def fromBytes : Bytes → Nat
  | [] => 0
  | byte :: bytes => byte.toNat + 256 * fromBytes bytes

namespace Serializer

def create (addCRC addSize : Bool) : Serializer :=
  { buf := .create addCRC addSize, packedSize := 0, mode := .packedSize }

/-- The buffer gets the memory which it asks for. -/
def packBytes (ser : Serializer) (bytes : Bytes) : Option Serializer :=
  (ser.buf.acquire true bytes.length).toOption.map fun (pos, b) =>
    { ser with buf := b.store pos bytes }

def unpackBytes (ser : Serializer) (n : Nat) : Option (Bytes × Serializer) :=
  (ser.buf.acquire true n).toOption.bind fun (pos, b) =>
    (b.load pos n).map fun bytes => (bytes, { ser with buf := b })

end Serializer

def integer (width n : Nat) (ser : Serializer) : Option (Nat × Serializer) :=
  match ser.mode with
  | .packedSize => some (n, { ser with packedSize := ser.packedSize + width })
  | .pack => (ser.packBytes (toBytes width n)).map fun ser => (n, ser)
  | .unpack => (ser.unpackBytes width).map fun (bytes, ser) => (fromBytes bytes, ser)
  | .cleanup => some (n, ser)

/-- As many objects of the given size as are needed, one after the other. -/
def objects (size : Nat) : Nat → Bytes → List (Fin size → UInt8)
  | 0, _ => []
  | len + 1, bytes => (fun i => bytes.getD i 0) :: objects size len (bytes.drop size)

/-- `bitwise_serializable`: the objects of an array are copied as a whole. -/
def bitwise (size : Nat) : Traversal (List (Fin size → UInt8)) := fun arr ser =>
  match ser.mode with
  | .packedSize => some (arr, { ser with packedSize := ser.packedSize + arr.length * size })
  | .pack => (ser.packBytes (arr.flatMap List.ofFn)).map fun ser => (arr, ser)
  | .unpack =>
      (ser.unpackBytes (arr.length * size)).map fun (bytes, ser) =>
        (objects size arr.length bytes, ser)
  | .cleanup => some (arr, ser)

variable {α : Type}

/-- The loop over the objects of an array. -/
def each (serialize : Traversal α) : Traversal (List α)
  | [], ser => some ([], ser)
  | obj :: arr, ser =>
      (serialize obj ser).bind fun (obj, ser) =>
        (each serialize arr ser).map fun (arr, ser) => (obj :: arr, ser)

/-- `explicitly_serializable`: the objects are serialized one after the other, and their
size is computed with a serializer of its own. -/
def explicitly (serialize : Traversal α) : Traversal (List α) := fun arr ser =>
  match ser.mode with
  | .packedSize =>
      (each serialize arr (Serializer.create false false)).map fun (_, tmpBuf) =>
        (arr, { ser with packedSize := ser.packedSize + tmpBuf.packedSize })
  | _ => each serialize arr ser

/-- `operator&`: an object is an array of length one. -/
def amp (apply : Traversal (List α)) : Traversal α := fun obj ser =>
  (apply [obj] ser).bind fun (arr, ser) => arr.head?.map fun obj => (obj, ser)

/-- `operator&` for a `chunk` with `no_alloc`, whose length is that of the array. -/
def chunk (apply : Traversal (List α)) : Traversal (List α) := fun arr ser =>
  match ser.mode with
  | .packedSize | .pack =>
      (integer 8 arr.length ser).bind fun (_, ser) => apply arr ser
  | .unpack =>
      (integer 8 0 ser).bind fun (arrLen, ser) =>
        if arrLen ≤ arr.length then
          (apply (arr.take arrLen) ser).map fun (objs, ser) => (objs ++ arr.drop arrLen, ser)
        else none
  | .cleanup => apply arr ser

/-- A `chunk` of characters. -/
def charChunk : Traversal Bytes := fun str ser =>
  (chunk (bitwise 1) (str.map fun char _ => char) ser).map fun (arr, ser) =>
    (arr.map fun char => char 0, ser)

/-- The types of objects.  An object of `chunk` has memory for the given number of objects
which its `serialize` function gives to a `chunk` with `no_alloc`.  For a `pointer` there is
`CNC_POINTER_SERIALIZABLE`. -/
inductive Ty where
  | bits (size : Nat) (positive : 0 < size)
  | pair (first second : Ty)
  | vector (elem : Ty)
  | array (elem : Ty) (n : Nat)
  | chunk (elem : Ty) (n : Nat)
  | string
  | cString
  | pointer (target : Ty)
  | sharedPtr (target : Ty)

namespace Ty

/-- A string of the type `const char *` ends before the first zero. -/
def Val : Ty → Type
  | bits size _ => Fin size → UInt8
  | pair first second => first.Val × second.Val
  | vector elem => List elem.Val
  | array elem n | chunk elem n => Fin n → elem.Val
  | string => Bytes
  | cString => { str : Bytes // 0 ∉ str }
  | pointer target | sharedPtr target => Option target.Val

def default : (t : Ty) → t.Val
  | bits _ _ => fun _ => 0
  | pair first second => (first.default, second.default)
  | vector _ => []
  | array elem _ | chunk elem _ => fun _ => elem.default
  | string => []
  | cString => ⟨[], List.not_mem_nil⟩
  | pointer _ | sharedPtr _ => none

def sizeof : Ty → Option Nat
  | bits size _ => some size
  | _ => none

end Ty

/-- A `chunk` of one object at a null pointer.  Only the size of the object is needed for
the size of an array, and nothing is needed to release bitwise serializable objects. -/
def nullChunk (target : Ty) (ser : Serializer) : Option Serializer :=
  match ser.mode, target.sizeof with
  | .packedSize, some size => some { ser with packedSize := ser.packedSize + 8 + size }
  | .cleanup, some _ => some ser
  | _, _ => none

def upToZero (str : Bytes) : { str : Bytes // 0 ∉ str } :=
  ⟨str.takeWhile (· ≠ 0), fun isMember => by simpa using List.mem_takeWhile_imp isMember⟩

/-- `vector::resize`. -/
def resize (obj : List α) (sz : Nat) (default : α) : List α :=
  obj.take sz ++ List.replicate (sz - obj.length) default

/-- `serialize` for `std::vector`. -/
def serializeVector (apply : Traversal (List α)) (default : α) : Traversal (List α) :=
  fun obj ser =>
    (integer 8 obj.length ser).bind fun (sz, ser) =>
      chunk apply (if ser.mode = .unpack then resize obj sz default else obj) ser

/-- `serialize` for `std::array`, and for other memory for `n` objects. -/
def serializeArray (apply : Traversal (List α)) (n : Nat) : Traversal (Fin n → α) :=
  fun obj ser =>
    (chunk apply (List.ofFn obj) ser).map fun (arr, ser) => (fun i => arr.getD i (obj i), ser)

/-- `serialize` for `std::string`.  The characters are assigned as a C string. -/
def serializeString : Traversal Bytes := fun str ser =>
  (integer 8 (str.length + 1) ser).bind fun (sz, ser) =>
    if ser.mode = .unpack then
      (charChunk (List.replicate sz 0) ser).bind fun (s, ser) =>
        if 0 ∈ s then some ((upToZero s).1, ser) else none
    else (charChunk (str ++ [0]) ser).map fun (_, ser) => (str, ser)

/-- `serialize` for `const char *`.  The length is an `int` only when unpacking. -/
def serializeCString : Traversal { str : Bytes // 0 ∉ str } := fun str ser =>
  match ser.mode with
  | .unpack =>
      (integer 4 0 ser).bind fun (sz, ser) =>
        if sz < 2 ^ 31 then
          (charChunk (List.replicate sz 0) ser).bind fun (s, ser) =>
            if 0 ∈ s then some (upToZero s, ser) else none
        else none
  | .cleanup => some (str, ser)
  | _ =>
      (integer 8 (str.1.length + 1) ser).bind fun (_, ser) =>
        (charChunk (str.1 ++ [0]) ser).map fun (_, ser) => (str, ser)

/-- What `CNC_POINTER_SERIALIZABLE` does after `sz`.  The `chunk` allocates and releases the
object. -/
def serializePointee (target : Ty) (apply : Traversal (List target.Val))
    (ptr : Option target.Val) (sz : Nat) (ser : Serializer) :
    Option (Option target.Val × Serializer) :=
  if sz ≠ 0 then
    match ser.mode, ptr with
    | .unpack, _ =>
        (integer 8 0 ser).bind fun (arrLen, ser) =>
          (apply (List.replicate arrLen target.default) ser).bind fun (arr, ser) =>
            arr.head?.map fun obj => (some obj, ser)
    | .cleanup, some obj => (apply [obj] ser).map fun (_, ser) => (none, ser)
    | _, some obj => (chunk apply [obj] ser).map fun (_, ser) => (ptr, ser)
    | _, none => (nullChunk target ser).map fun ser => (none, ser)
  else if ser.mode = .unpack then some (none, ser) else some (ptr, ser)

/-- `CNC_POINTER_SERIALIZABLE`. -/
def serializePointer (target : Ty) (apply : Traversal (List target.Val)) :
    Traversal (Option target.Val) := fun ptr ser =>
  (integer 4 (if ser.mode = .pack ∧ ptr = none then 0 else 1) ser).bind fun (sz, ser) =>
    serializePointee target apply ptr sz ser

/-- `serialize` for `std::shared_ptr`. -/
def serializeShared (target : Ty) (apply : Traversal (List target.Val)) :
    Traversal (Option target.Val) := fun ptr ser =>
  match ser.mode, ptr with
  | .unpack, _ =>
      (chunk apply [target.default] ser).bind fun (arr, ser) =>
        arr.head?.map fun obj => (some obj, ser)
  | .cleanup, _ => some (ptr, ser)
  | _, some obj => (chunk apply [obj] ser).map fun (_, ser) => (ptr, ser)
  | _, none => (nullChunk target ser).map fun ser => (ptr, ser)

/-- An array of objects of the type is traversed by its category. -/
def apply : (t : Ty) → Traversal (List t.Val)
  | .bits size _ => bitwise size
  | .pair first second => explicitly fun obj ser =>
      (amp (apply first) obj.1 ser).bind fun (x, ser) =>
        (amp (apply second) obj.2 ser).map fun (y, ser) => ((x, y), ser)
  | .vector elem => explicitly (serializeVector (apply elem) elem.default)
  | .array elem n => explicitly (serializeArray (apply elem) n)
  | .chunk elem n => explicitly (serializeArray (apply elem) n)
  | .string => explicitly serializeString
  | .cString => explicitly serializeCString
  | .pointer target => explicitly (serializePointer target (apply target))
  | .sharedPtr target => explicitly (serializeShared target (apply target))

abbrev Obj := Σ t : Ty, t.Val

def packAll : List Obj → Serializer → Option Serializer
  | [], ser => some ser
  | ⟨t, obj⟩ :: objs, ser =>
      (amp (apply t) obj ser).bind fun (_, ser) => packAll objs ser

def unpackAll : List Ty → Serializer → Option (List Obj × Serializer)
  | [], ser => some ([], ser)
  | t :: types, ser =>
      (amp (apply t) t.default ser).bind fun (obj, ser) =>
        (unpackAll types ser).map fun (objs, ser) => (⟨t, obj⟩ :: objs, ser)

/-- `new_serializer`: the identifiers of the context and of the collection are packed. -/
def newSerializer (context distributable : Nat) : Option Serializer :=
  ((Buffer.create false true).reset true false true false).toOption.bind fun b =>
    (integer 4 context { buf := b, packedSize := 0, mode := .pack }).bind fun (_, ser) =>
      (integer 4 distributable ser).map Prod.snd

/-- What has been packed or unpacked. -/
def Buffer.bodySize (b : Buffer) : Nat :=
  b.curr - b.body

def Buffer.bodyBytes (b : Buffer) : Option Bytes :=
  b.load b.body b.bodySize

end CnC.Serialize
