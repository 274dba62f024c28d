import CnC.Serialize.Modes

/-!
# The encoding of values

The bytes of a value, its computed size and what is received for it are given by recursion on
the type, and every mode of the traversal is proved to follow them.
-/

namespace CnC.Serialize

def encodeString (str : Bytes) : Bytes :=
  toBytes 8 (str.length + 1) ++ (toBytes 8 (str.length + 1) ++ (str ++ [0]))

def receivedString (str : Bytes) : Bytes :=
  (upToZero (str ++ [0])).1

namespace Ty

def encode : (t : Ty) → t.Val → Bytes
  | bits _ _, obj => List.ofFn obj
  | pair first second, obj => first.encode obj.1 ++ second.encode obj.2
  | vector elem, obj => toBytes 8 obj.length ++ (toBytes 8 obj.length ++ obj.flatMap elem.encode)
  | array elem n, obj | chunk elem n, obj => toBytes 8 n ++ (List.ofFn obj).flatMap elem.encode
  | string, str => encodeString str
  | cString, str => encodeString str.1
  | pointer _, none => toBytes 4 0
  | pointer target, some obj => toBytes 4 1 ++ (toBytes 8 1 ++ target.encode obj)
  | sharedPtr _, none => []
  | sharedPtr target, some obj => toBytes 8 1 ++ target.encode obj

/-- No null pointer has to be followed to pack the value. -/
def packable : (t : Ty) → t.Val → Bool
  | bits _ _, _ => true
  | pair first second, obj => first.packable obj.1 && second.packable obj.2
  | vector elem, obj => obj.all elem.packable
  | array elem _, obj | chunk elem _, obj => (List.ofFn obj).all elem.packable
  | string, _ | cString, _ => true
  | pointer _, none => true
  | pointer target, some obj => target.packable obj
  | sharedPtr _, none => false
  | sharedPtr target, some obj => target.packable obj

def size : (t : Ty) → t.Val → Nat
  | bits size _, _ => size
  | pair first second, obj => first.size obj.1 + second.size obj.2
  | vector elem, obj => 8 + (8 + (obj.map elem.size).sum)
  | array elem _, obj | chunk elem _, obj => 8 + ((List.ofFn obj).map elem.size).sum
  | string, str => 8 + (8 + (str.length + 1))
  | cString, str => 8 + (8 + (str.1.length + 1))
  | pointer target, none => 4 + (8 + target.sizeof.getD 0)
  | pointer target, some obj => 4 + (8 + target.size obj)
  | sharedPtr target, none => 8 + target.sizeof.getD 0
  | sharedPtr target, some obj => 8 + target.size obj

/-- No null pointer has to be followed to compute the size of the value. -/
def sizable : (t : Ty) → t.Val → Bool
  | bits _ _, _ => true
  | pair first second, obj => first.sizable obj.1 && second.sizable obj.2
  | vector elem, obj => obj.all elem.sizable
  | array elem _, obj | chunk elem _, obj => (List.ofFn obj).all elem.sizable
  | string, _ | cString, _ => true
  | pointer target, none | sharedPtr target, none => target.sizeof.isSome
  | pointer target, some obj | sharedPtr target, some obj => target.sizable obj

/-- The object which is unpacked for a value: a string ends before its first zero. -/
def received : (t : Ty) → t.Val → t.Val
  | bits _ _, obj => obj
  | pair first second, obj => (first.received obj.1, second.received obj.2)
  | vector elem, obj => obj.map elem.received
  | array elem _, obj | chunk elem _, obj => fun i => elem.received (obj i)
  | string, str => receivedString str
  | cString, str => str
  | pointer target, ptr | sharedPtr target, ptr => ptr.map target.received

/-- The value holds no string of the type `const char *`. -/
def receivable : (t : Ty) → t.Val → Bool
  | bits _ _, _ => true
  | pair first second, obj => first.receivable obj.1 && second.receivable obj.2
  | vector elem, obj => obj.all elem.receivable
  | array elem _, obj | chunk elem _, obj => (List.ofFn obj).all elem.receivable
  | string, _ => true
  | cString, _ => false
  | pointer _, none | sharedPtr _, none => true
  | pointer target, some obj | sharedPtr target, some obj => target.receivable obj

end Ty

section Rules

variable {α : Type} {apply : Traversal (List α)} {ok : Bool} {bytes : Bytes}

theorem packs_vector {obj : List α} (packs : Packs (apply obj) obj ok bytes) (default : α) :
    Packs (serializeVector apply default obj) obj ok
      (toBytes 8 obj.length ++ (toBytes 8 obj.length ++ bytes)) := by
  have objects : Packs (fun ser =>
      chunk apply (if ser.mode = .unpack then resize obj obj.length default else obj) ser) obj ok
      (toBytes 8 obj.length ++ bytes) :=
    packs.chunk.congr fun ser isPack => by simp [isPack]
  exact (packs_integer 8 obj.length).bind objects

theorem packs_array {n : Nat} {obj : Fin n → α}
    (packs : Packs (apply (List.ofFn obj)) (List.ofFn obj) ok bytes) :
    Packs (serializeArray apply n obj) obj ok (toBytes 8 n ++ bytes) := by
  have objects := packs.chunk.map fun arr (i : Fin n) => arr.getD i (obj i)
  have same : (fun i : Fin n => (List.ofFn obj).getD i (obj i)) = obj := by
    funext i
    simp
  rw [same, List.length_ofFn] at objects
  exact objects

theorem packs_terminated (str : Bytes) (x : α) :
    Packs (fun ser => (charChunk (str ++ [0]) ser).map fun r => (x, r.2)) x true
      (toBytes 8 (str.length + 1) ++ (str ++ [0])) := by
  have chars := (packs_charChunk (str ++ [0])).map fun _ => x
  rw [List.length_append] at chars
  exact chars

theorem packs_string (str : Bytes) :
    Packs (serializeString str) str true (encodeString str) := by
  have chars : Packs (fun ser =>
      if ser.mode = .unpack then
        (charChunk (List.replicate (str.length + 1) 0) ser).bind fun r =>
          if 0 ∈ r.1 then some ((upToZero r.1).1, r.2) else none
      else (charChunk (str ++ [0]) ser).map fun r => (str, r.2)) str true
      (toBytes 8 (str.length + 1) ++ (str ++ [0])) :=
    (packs_terminated str str).congr fun ser isPack => by simp [isPack]
  exact (packs_integer 8 (str.length + 1)).bind chars

theorem packs_cString (str : { str : Bytes // 0 ∉ str }) :
    Packs (serializeCString str) str true (encodeString str.1) := by
  have both : Packs (fun ser => (integer 8 (str.1.length + 1) ser).bind fun r =>
      (charChunk (str.1 ++ [0]) r.2).map fun r => (str, r.2)) str (true && true)
      (encodeString str.1) :=
    (packs_integer 8 (str.1.length + 1)).bind (packs_terminated str.1 str)
  exact both.congr fun ser isPack => by simp only [serializeCString, isPack]

theorem packs_null (target : Ty) (apply : Traversal (List target.Val)) :
    Packs (serializePointer target apply none) none true (toBytes 4 0) := by
  have rest : Packs (serializePointee target apply none 0) none true [] :=
    (Packs.pure none).congr fun ser isPack => by simp [serializePointee, isPack]
  have both : Packs (fun ser => (integer 4 0 ser).bind fun r =>
      serializePointee target apply none r.1 r.2) none (true && true) (toBytes 4 0 ++ []) :=
    (packs_integer 4 0).bind rest
  rw [List.append_nil] at both
  exact both.congr fun ser isPack => by simp [serializePointer, isPack]

theorem packs_pointer {target : Ty} {apply : Traversal (List target.Val)} {obj : target.Val}
    (packs : Packs (apply [obj]) [obj] ok bytes) :
    Packs (serializePointer target apply (some obj)) (some obj) ok
      (toBytes 4 1 ++ (toBytes 8 1 ++ bytes)) := by
  have rest : Packs (serializePointee target apply (some obj) 1) (some obj) ok
      (toBytes 8 1 ++ bytes) :=
    (packs.chunk.map fun _ => some obj).congr fun ser isPack => by
      simp [serializePointee, isPack]
  have both : Packs (fun ser => (integer 4 1 ser).bind fun r =>
      serializePointee target apply (some obj) r.1 r.2) (some obj) (true && ok)
      (toBytes 4 1 ++ (toBytes 8 1 ++ bytes)) := (packs_integer 4 1).bind rest
  exact both.congr fun ser isPack => by simp [serializePointer]

theorem packs_shared {target : Ty} {apply : Traversal (List target.Val)} {obj : target.Val}
    (packs : Packs (apply [obj]) [obj] ok bytes) :
    Packs (serializeShared target apply (some obj)) (some obj) ok (toBytes 8 1 ++ bytes) :=
  (packs.chunk.map fun _ => some obj).congr fun ser isPack => by
    simp only [serializeShared, isPack]

theorem packs_sharedNull (target : Ty) (apply : Traversal (List target.Val)) :
    Packs (serializeShared target apply none) none false [] := by
  intro ser _ isPack _ _
  simp [serializeShared, nullChunk, isPack]

end Rules

theorem packs_apply (t : Ty) (arr : List t.Val) :
    Packs (apply t arr) arr (arr.all t.packable) (arr.flatMap t.encode) := by
  induction t with
  | bits size positive =>
      have all : arr.all (Ty.bits size positive).packable = true :=
        List.all_eq_true.mpr fun _ _ => rfl
      rw [all]
      exact packs_bitwise arr
  | pair first second ihFirst ihSecond =>
      refine (packs_each (fun obj => ?_) arr).explicitly
      have x := ihFirst [obj.1]
      have y := ihSecond [obj.2]
      simp only [List.all_cons, List.all_nil, Bool.and_true, List.flatMap_cons, List.flatMap_nil,
        List.append_nil] at x y
      exact x.amp.bind (y.amp.map fun second => (obj.1, second))
  | vector elem inductionHypothesis =>
      exact (packs_each (fun obj => packs_vector (inductionHypothesis obj) _) arr).explicitly
  | array elem n inductionHypothesis =>
      exact (packs_each (fun obj => packs_array (inductionHypothesis (List.ofFn obj)))
        arr).explicitly
  | chunk elem n inductionHypothesis =>
      exact (packs_each (fun obj => packs_array (inductionHypothesis (List.ofFn obj)))
        arr).explicitly
  | string => exact (packs_each packs_string arr).explicitly
  | cString => exact (packs_each packs_cString arr).explicitly
  | pointer target inductionHypothesis =>
      refine (packs_each (fun obj => ?_) arr).explicitly
      cases obj with
      | none => exact packs_null target (apply target)
      | some obj =>
          have pointee := inductionHypothesis [obj]
          simp only [List.all_cons, List.all_nil, Bool.and_true, List.flatMap_cons,
            List.flatMap_nil, List.append_nil] at pointee
          exact packs_pointer pointee
  | sharedPtr target inductionHypothesis =>
      refine (packs_each (fun obj => ?_) arr).explicitly
      cases obj with
      | none => exact packs_sharedNull target (apply target)
      | some obj =>
          have pointee := inductionHypothesis [obj]
          simp only [List.all_cons, List.all_nil, Bool.and_true, List.flatMap_cons,
            List.flatMap_nil, List.append_nil] at pointee
          exact packs_shared pointee

section Sizes

variable {α : Type} {apply : Traversal (List α)} {ok : Bool} {count : Nat}

theorem sizes_vector {obj : List α} (sizes : Sizes (apply obj) obj ok count) (default : α) :
    Sizes (serializeVector apply default obj) obj ok (8 + (8 + count)) := by
  have objects : Sizes (fun ser =>
      chunk apply (if ser.mode = .unpack then resize obj obj.length default else obj) ser) obj ok
      (8 + count) :=
    sizes.chunk.congr fun ser isSize => by simp [isSize]
  exact (sizes_integer 8 obj.length).bind objects

theorem sizes_array {n : Nat} {obj : Fin n → α}
    (sizes : Sizes (apply (List.ofFn obj)) (List.ofFn obj) ok count) :
    Sizes (serializeArray apply n obj) obj ok (8 + count) := by
  have objects := sizes.chunk.map fun arr (i : Fin n) => arr.getD i (obj i)
  have same : (fun i : Fin n => (List.ofFn obj).getD i (obj i)) = obj := by
    funext i
    simp
  rw [same] at objects
  exact objects

theorem sizes_terminated (str : Bytes) (x : α) :
    Sizes (fun ser => (charChunk (str ++ [0]) ser).map fun r => (x, r.2)) x true
      (8 + (str.length + 1)) := by
  have chars := (sizes_charChunk (str ++ [0])).map fun _ => x
  rw [List.length_append] at chars
  exact chars

theorem sizes_string (str : Bytes) :
    Sizes (serializeString str) str true (8 + (8 + (str.length + 1))) := by
  have chars : Sizes (fun ser =>
      if ser.mode = .unpack then
        (charChunk (List.replicate (str.length + 1) 0) ser).bind fun r =>
          if 0 ∈ r.1 then some ((upToZero r.1).1, r.2) else none
      else (charChunk (str ++ [0]) ser).map fun r => (str, r.2)) str true
      (8 + (str.length + 1)) :=
    (sizes_terminated str str).congr fun ser isSize => by simp [isSize]
  exact (sizes_integer 8 (str.length + 1)).bind chars

theorem sizes_cString (str : { str : Bytes // 0 ∉ str }) :
    Sizes (serializeCString str) str true (8 + (8 + (str.1.length + 1))) := by
  have both : Sizes (fun ser => (integer 8 (str.1.length + 1) ser).bind fun r =>
      (charChunk (str.1 ++ [0]) r.2).map fun r => (str, r.2)) str (true && true)
      (8 + (8 + (str.1.length + 1))) :=
    (sizes_integer 8 (str.1.length + 1)).bind (sizes_terminated str.1 str)
  exact both.congr fun ser isSize => by simp only [serializeCString, isSize]

theorem sizes_nullChunk (target : Ty) (ptr : Option target.Val) :
    Sizes (fun ser => (nullChunk target ser).map fun ser => (ptr, ser)) ptr
      target.sizeof.isSome (8 + target.sizeof.getD 0) := by
  intro ser isSize
  cases known : target.sizeof with
  | none => simp [nullChunk, isSize, known]
  | some size => simp [nullChunk, isSize, known, Nat.add_assoc]

theorem sizes_null (target : Ty) (apply : Traversal (List target.Val)) :
    Sizes (serializePointer target apply none) none target.sizeof.isSome
      (4 + (8 + target.sizeof.getD 0)) := by
  have rest : Sizes (serializePointee target apply none 1) none target.sizeof.isSome
      (8 + target.sizeof.getD 0) :=
    (sizes_nullChunk target none).congr fun ser isSize => by simp [serializePointee, isSize]
  have both : Sizes (fun ser => (integer 4 1 ser).bind fun r =>
      serializePointee target apply none r.1 r.2) none (true && target.sizeof.isSome)
      (4 + (8 + target.sizeof.getD 0)) := (sizes_integer 4 1).bind rest
  exact both.congr fun ser isSize => by simp [serializePointer, isSize]

theorem sizes_pointer {target : Ty} {apply : Traversal (List target.Val)} {obj : target.Val}
    (sizes : Sizes (apply [obj]) [obj] ok count) :
    Sizes (serializePointer target apply (some obj)) (some obj) ok (4 + (8 + count)) := by
  have rest : Sizes (serializePointee target apply (some obj) 1) (some obj) ok (8 + count) :=
    (sizes.chunk.map fun _ => some obj).congr fun ser isSize => by
      simp [serializePointee, isSize]
  have both : Sizes (fun ser => (integer 4 1 ser).bind fun r =>
      serializePointee target apply (some obj) r.1 r.2) (some obj) (true && ok)
      (4 + (8 + count)) := (sizes_integer 4 1).bind rest
  exact both.congr fun ser isSize => by simp [serializePointer]

theorem sizes_sharedNull (target : Ty) (apply : Traversal (List target.Val)) :
    Sizes (serializeShared target apply none) none target.sizeof.isSome
      (8 + target.sizeof.getD 0) :=
  (sizes_nullChunk target none).congr fun ser isSize => by simp only [serializeShared, isSize]

theorem sizes_shared {target : Ty} {apply : Traversal (List target.Val)} {obj : target.Val}
    (sizes : Sizes (apply [obj]) [obj] ok count) :
    Sizes (serializeShared target apply (some obj)) (some obj) ok (8 + count) :=
  (sizes.chunk.map fun _ => some obj).congr fun ser isSize => by
    simp only [serializeShared, isSize]

end Sizes

theorem sizes_apply (t : Ty) (arr : List t.Val) :
    Sizes (apply t arr) arr (arr.all t.sizable) (arr.map t.size).sum := by
  induction t with
  | bits size positive =>
      have all : arr.all (Ty.bits size positive).sizable = true :=
        List.all_eq_true.mpr fun _ _ => rfl
      have total : (arr.map (Ty.bits size positive).size).sum = arr.length * size := by
        have each : (Ty.bits size positive).size = fun _ => size := rfl
        rw [each, List.map_const', List.sum_replicate, smul_eq_mul]
      rw [all, total]
      exact sizes_bitwise arr
  | pair first second ihFirst ihSecond =>
      refine (sizes_each (fun obj => ?_) arr).explicitly
      have x := ihFirst [obj.1]
      have y := ihSecond [obj.2]
      simp only [List.all_cons, List.all_nil, Bool.and_true, List.map_cons, List.map_nil,
        List.sum_cons, List.sum_nil, Nat.add_zero] at x y
      exact x.amp.bind (y.amp.map fun second => (obj.1, second))
  | vector elem inductionHypothesis =>
      exact (sizes_each (fun obj => sizes_vector (inductionHypothesis obj) _) arr).explicitly
  | array elem n inductionHypothesis =>
      exact (sizes_each (fun obj => sizes_array (inductionHypothesis (List.ofFn obj)))
        arr).explicitly
  | chunk elem n inductionHypothesis =>
      exact (sizes_each (fun obj => sizes_array (inductionHypothesis (List.ofFn obj)))
        arr).explicitly
  | string => exact (sizes_each sizes_string arr).explicitly
  | cString => exact (sizes_each sizes_cString arr).explicitly
  | pointer target inductionHypothesis =>
      refine (sizes_each (fun obj => ?_) arr).explicitly
      cases obj with
      | none => exact sizes_null target (apply target)
      | some obj =>
          have pointee := inductionHypothesis [obj]
          simp only [List.all_cons, List.all_nil, Bool.and_true, List.map_cons, List.map_nil,
            List.sum_cons, List.sum_nil, Nat.add_zero] at pointee
          exact sizes_pointer pointee
  | sharedPtr target inductionHypothesis =>
      refine (sizes_each (fun obj => ?_) arr).explicitly
      cases obj with
      | none => exact sizes_sharedNull target (apply target)
      | some obj =>
          have pointee := inductionHypothesis [obj]
          simp only [List.all_cons, List.all_nil, Bool.and_true, List.map_cons, List.map_nil,
            List.sum_cons, List.sum_nil, Nat.add_zero] at pointee
          exact sizes_shared pointee

section Lengths

theorem encode_pos (t : Ty) {obj : t.Val} (packed : t.packable obj) :
    0 < (t.encode obj).length := by
  induction t with
  | bits size positive =>
      have length : ((Ty.bits size positive).encode obj).length = size := List.length_ofFn ..
      omega
  | pair first second ihFirst _ =>
      have packs := ihFirst ((Bool.and_eq_true _ _).mp packed).1
      rw [Ty.encode, List.length_append]
      omega
  | vector elem => simp [Ty.encode]
  | array elem n => simp [Ty.encode]
  | chunk elem n => simp [Ty.encode]
  | string => simp [Ty.encode, encodeString]
  | cString => simp [Ty.encode, encodeString]
  | pointer target =>
      cases obj with
      | none => simp [Ty.encode]
      | some obj => simp [Ty.encode]
  | sharedPtr target =>
      cases obj with
      | none => exact nomatch packed
      | some obj => simp [Ty.encode]

theorem length_le_encode (t : Ty) {arr : List t.Val} (packed : arr.all t.packable) :
    arr.length ≤ (arr.flatMap t.encode).length := by
  induction arr with
  | nil => exact Nat.zero_le _
  | cons obj arr inductionHypothesis =>
      simp only [List.all_cons, Bool.and_eq_true] at packed
      have first := encode_pos t packed.1
      have rest := inductionHypothesis packed.2
      rw [List.flatMap_cons, List.length_append, List.length_cons]
      omega

theorem length_resize {α : Type} (obj : List α) (sz : Nat) (default : α) :
    (resize obj sz default).length = sz := by
  rw [resize, List.length_append, List.length_take, List.length_replicate]
  omega

theorem toBytes_add (first second n : Nat) :
    toBytes (first + second) n = toBytes first n ++ toBytes second (n / 256 ^ first) := by
  induction first generalizing n with
  | zero => simp [toBytes]
  | succ first inductionHypothesis =>
      rw [Nat.succ_add, toBytes, toBytes, inductionHypothesis, List.cons_append,
        Nat.div_div_eq_div_mul, Nat.pow_succ']

theorem toBytes_mod (width n : Nat) : toBytes width (n % 256 ^ width) = toBytes width n := by
  induction width generalizing n with
  | zero => rfl
  | succ width inductionHypothesis =>
      have high : n % 256 ^ (width + 1) / 256 = n / 256 % 256 ^ width := by
        rw [Nat.pow_succ', Nat.mod_mul_right_div_self]
      have byte : UInt8.ofNat (n % 256 ^ (width + 1)) = UInt8.ofNat n := by
        apply UInt8.toNat_inj.mp
        simp
      rw [toBytes, toBytes, byte, high, inductionHypothesis]

end Lengths

section Unpacking

variable {α : Type} {apply : Traversal (List α)} {ok : Bool} {bytes : Bytes}

theorem unpacks_vector {arr : List α} {sz : Nat} (bounded : sz < 2 ^ 64)
    (unpacks : ∀ target, target.length = sz → Unpacks (apply target) arr ok bytes)
    (default : α) (before : List α) :
    Unpacks (serializeVector apply default before) arr ok
      (toBytes 8 sz ++ (toBytes 8 sz ++ bytes)) := by
  have length := length_resize before sz default
  have chunks := (unpacks _ length).chunk (by rwa [length])
  rw [length] at chunks
  have objects : Unpacks (fun ser =>
      chunk apply (if ser.mode = .unpack then resize before sz default else before) ser) arr ok
      (toBytes 8 sz ++ bytes) :=
    chunks.congr fun ser isUnpack => by rw [if_pos isUnpack]
  exact (unpacks_length bounded before.length).bind objects

theorem unpacks_array {n : Nat} {before obj : Fin n → α} (bounded : n < 2 ^ 64)
    (unpacks : Unpacks (apply (List.ofFn before)) (List.ofFn obj) ok bytes) :
    Unpacks (serializeArray apply n before) obj ok (toBytes 8 n ++ bytes) := by
  have chunks := (unpacks.chunk (by rwa [List.length_ofFn])).map
    fun arr (i : Fin n) => arr.getD i (before i)
  have same : (fun i : Fin n => (List.ofFn obj).getD i (before i)) = obj := by
    funext i
    simp
  rw [same, List.length_ofFn] at chunks
  exact chunks

theorem unpacks_string (before str : Bytes) :
    Unpacks (serializeString before) (receivedString str) true (encodeString str) := by
  refine .of_bound fun short => ?_
  have bounded : str.length + 1 < 2 ^ 64 := by
    simp only [encodeString, List.length_append] at short
    omega
  have chars : Unpacks (fun ser => (charChunk (List.replicate (str.length + 1) 0) ser).bind
      fun r => if 0 ∈ r.1 then some ((upToZero r.1).1, r.2) else none) (receivedString str)
      (true && true) (toBytes 8 (str ++ [0]).length ++ (str ++ [0]) ++ []) := by
    refine (unpacks_charChunk (by simpa using bounded) (by simp)).bind ?_
    exact (Unpacks.pure _).congr fun ser _ => if_pos (by simp)
  rw [List.append_nil, List.length_append] at chars
  have assigned : Unpacks (fun ser =>
      if ser.mode = .unpack then
        (charChunk (List.replicate (str.length + 1) 0) ser).bind fun r =>
          if 0 ∈ r.1 then some ((upToZero r.1).1, r.2) else none
      else (charChunk (before ++ [0]) ser).map fun r => (before, r.2)) (receivedString str) true
      (toBytes 8 (str.length + 1) ++ (str ++ [0])) :=
    chars.congr fun ser isUnpack => by rw [if_pos isUnpack]
  exact (unpacks_length bounded (before.length + 1)).bind assigned

theorem toBytes_halves (sz : Nat) (bounded : sz < 2 ^ 64) (rest : Bytes) :
    toBytes 8 sz ++ (toBytes 8 sz ++ rest) =
      toBytes 4 sz ++
        (toBytes 8 (sz / 2 ^ 32 + 2 ^ 32 * (sz % 2 ^ 32)) ++
          (toBytes 4 (sz / 2 ^ 32) ++ rest)) := by
  have power : 256 ^ 4 = 2 ^ 32 := by decide
  have halves := toBytes_add 4 4 sz
  have joined := toBytes_add 4 4 (sz / 2 ^ 32 + 2 ^ 32 * (sz % 2 ^ 32))
  have low : (sz / 2 ^ 32 + 2 ^ 32 * (sz % 2 ^ 32)) % 256 ^ 4 = sz / 2 ^ 32 := by omega
  have high : (sz / 2 ^ 32 + 2 ^ 32 * (sz % 2 ^ 32)) / 256 ^ 4 = sz % 256 ^ 4 := by omega
  rw [← toBytes_mod 4 (sz / 2 ^ 32 + _), low, high, toBytes_mod] at joined
  rw [power] at halves
  rw [halves, joined]
  simp only [List.append_assoc]

/-- The length of the `chunk` is read four bytes too early.  What is taken for it is more than
the characters for which there is memory. -/
theorem unpacks_cString (before str : { str : Bytes // 0 ∉ str }) :
    Unpacks (serializeCString before) str false (encodeString str.1) := by
  refine .of_bound fun short => ?_
  have bounded : str.1.length + 1 < 2 ^ 63 := by
    simp [encodeString] at short
    omega
  have positive : 0 < str.1.length + 1 := Nat.succ_pos _
  rw [encodeString, toBytes_halves _ (by omega)]
  generalize str.1.length + 1 = sz at bounded positive
  have power : 256 ^ 4 = 2 ^ 32 := by decide
  have tooMany : (List.replicate (sz % 256 ^ 4) (0 : UInt8)).length <
      sz / 2 ^ 32 + 2 ^ 32 * (sz % 2 ^ 32) := by
    rw [List.length_replicate]
    omega
  have chars : Unpacks (fun ser =>
      if sz % 256 ^ 4 < 2 ^ 31 then
        (charChunk (List.replicate (sz % 256 ^ 4) 0) ser).bind fun r =>
          if 0 ∈ r.1 then some (upToZero r.1, r.2) else none
      else none) str false (toBytes 8 (sz / 2 ^ 32 + 2 ^ 32 * (sz % 2 ^ 32)) ++
        (toBytes 4 (sz / 2 ^ 32) ++ (str.1 ++ [0]))) := by
    by_cases small : sz % 256 ^ 4 < 2 ^ 31
    · simp only [if_pos small]
      have nothing : Unpacks _ str.1 false _ := unpacks_charChunk_none (by omega) tooMany
      exact nothing.bind_false
    · simp only [if_neg small]
      exact fun ser _ _ _ _ _ => rfl
  have both : Unpacks (fun ser => (integer 4 0 ser).bind fun r =>
      if r.1 < 2 ^ 31 then
        (charChunk (List.replicate r.1 0) r.2).bind fun r =>
          if 0 ∈ r.1 then some (upToZero r.1, r.2) else none
      else none) str (true && false) _ := (unpacks_integer 4 0 sz).bind chars
  exact both.congr fun ser isUnpack => by simp only [serializeCString, isUnpack]

theorem unpacks_null (target : Ty) (apply : Traversal (List target.Val))
    (before : Option target.Val) :
    Unpacks (serializePointer target apply before) none true (toBytes 4 0) := by
  have rest : Unpacks (serializePointee target apply before (0 % 256 ^ 4)) none true [] :=
    (Unpacks.pure none).congr fun ser isUnpack => by simp [serializePointee, isUnpack]
  have both : Unpacks (fun ser => (integer 4 1 ser).bind fun r =>
      serializePointee target apply before r.1 r.2) none (true && true) (toBytes 4 0 ++ []) :=
    (unpacks_integer 4 1 0).bind rest
  rw [List.append_nil] at both
  exact both.congr fun ser isUnpack => by simp [serializePointer, isUnpack]

theorem unpacks_pointer {target : Ty} {apply : Traversal (List target.Val)}
    {obj : target.Val} (before : Option target.Val)
    (unpacks : Unpacks (apply [target.default]) [obj] ok bytes) :
    Unpacks (serializePointer target apply before) (some obj) ok
      (toBytes 4 1 ++ (toBytes 8 1 ++ bytes)) := by
  have object : Unpacks (fun ser => (apply (List.replicate 1 target.default) ser).bind fun r =>
      r.1.head?.map fun obj => (some obj, r.2)) (some obj) (ok && true) (bytes ++ []) :=
    unpacks.bind (.pure (some obj))
  rw [List.append_nil, Bool.and_true] at object
  have allocated : Unpacks (fun ser => (integer 8 0 ser).bind fun r =>
      (apply (List.replicate r.1 target.default) r.2).bind fun r =>
        r.1.head?.map fun obj => (some obj, r.2)) (some obj) (true && ok) (toBytes 8 1 ++ bytes) :=
    (unpacks_length (by decide) 0).bind object
  have rest : Unpacks (serializePointee target apply before (1 % 256 ^ 4)) (some obj) ok
      (toBytes 8 1 ++ bytes) :=
    allocated.congr fun ser isUnpack => by simp [serializePointee, isUnpack]
  have both : Unpacks (fun ser => (integer 4 1 ser).bind fun r =>
      serializePointee target apply before r.1 r.2) (some obj) (true && ok)
      (toBytes 4 1 ++ (toBytes 8 1 ++ bytes)) := (unpacks_integer 4 1 1).bind rest
  exact both.congr fun ser isUnpack => by simp [serializePointer, isUnpack]

theorem unpacks_shared {target : Ty} {apply : Traversal (List target.Val)}
    {obj : target.Val} (before : Option target.Val)
    (unpacks : Unpacks (apply [target.default]) [obj] ok bytes) :
    Unpacks (serializeShared target apply before) (some obj) ok (toBytes 8 1 ++ bytes) := by
  have object : Unpacks (fun ser => (chunk apply [target.default] ser).bind fun r =>
      r.1.head?.map fun obj => (some obj, r.2)) (some obj) (ok && true)
      (toBytes 8 1 ++ bytes ++ []) :=
    (unpacks.chunk (by simp)).bind (.pure (some obj))
  rw [List.append_nil, Bool.and_true] at object
  exact object.congr fun ser isUnpack => by simp only [serializeShared, isUnpack]

end Unpacking

theorem unpacks_elements {elem : Ty} {n : Nat} {before obj : Fin n → elem.Val}
    (packed : (List.ofFn obj).all elem.packable)
    (unpacks : ∀ {before arr : List elem.Val}, before.length = arr.length →
      arr.all elem.packable → Unpacks (apply elem before) (arr.map elem.received)
        (arr.all elem.receivable) (arr.flatMap elem.encode)) :
    Unpacks (serializeArray (apply elem) n before) (fun i => elem.received (obj i))
      ((List.ofFn obj).all elem.receivable)
      (toBytes 8 n ++ (List.ofFn obj).flatMap elem.encode) := by
  refine .of_bound fun short => ?_
  have inside := length_le_encode elem packed
  have bounded : n < 2 ^ 64 := by
    rw [List.length_append] at short
    rw [List.length_ofFn] at inside
    omega
  have elements := @unpacks (List.ofFn before) (List.ofFn obj) (by simp) packed
  rw [List.map_ofFn] at elements
  exact unpacks_array bounded elements

theorem unpacks_apply (t : Ty) {before arr : List t.Val} (same : before.length = arr.length)
    (packed : arr.all t.packable) :
    Unpacks (apply t before) (arr.map t.received) (arr.all t.receivable)
      (arr.flatMap t.encode) := by
  induction t with
  | bits size positive =>
      have all : arr.all (Ty.bits size positive).receivable = true :=
        List.all_eq_true.mpr fun _ _ => rfl
      have unchanged : arr.map (Ty.bits size positive).received = arr := List.map_id arr
      rw [all, unchanged]
      exact unpacks_bitwise same
  | pair first second ihFirst ihSecond =>
      refine (unpacks_each (fun before obj packed => ?_) same packed).explicitly
      have parts := (Bool.and_eq_true _ _).mp packed
      have x := @ihFirst [before.1] [obj.1] rfl (by simpa using parts.1)
      have y := @ihSecond [before.2] [obj.2] rfl (by simpa using parts.2)
      simp only [List.all_cons, List.all_nil, Bool.and_true, List.flatMap_cons, List.flatMap_nil,
        List.append_nil, List.map_cons, List.map_nil] at x y
      exact x.amp.bind (y.amp.map fun received => (first.received obj.1, received))
  | vector elem inductionHypothesis =>
      refine (unpacks_each (fun before obj packed => ?_) same packed).explicitly
      refine .of_bound fun short => ?_
      have inside := length_le_encode elem packed
      have bounded : obj.length < 2 ^ 64 := by
        simp only [Ty.encode, List.length_append] at short
        omega
      exact unpacks_vector bounded (fun _ same => inductionHypothesis same packed) _ before
  | array elem n inductionHypothesis =>
      exact (unpacks_each (fun _ _ packed => unpacks_elements packed inductionHypothesis) same
        packed).explicitly
  | chunk elem n inductionHypothesis =>
      exact (unpacks_each (fun _ _ packed => unpacks_elements packed inductionHypothesis) same
        packed).explicitly
  | string => exact (unpacks_each (fun before obj _ => unpacks_string before obj) same
      packed).explicitly
  | cString =>
      have nothing (before str : Ty.cString.Val) : Unpacks (serializeCString before)
          (Ty.cString.received str) (Ty.cString.receivable str) (Ty.cString.encode str) :=
        unpacks_cString before str
      exact (unpacks_each (fun before str _ => nothing before str) same packed).explicitly
  | pointer target inductionHypothesis =>
      refine (unpacks_each (fun before obj packed => ?_) same packed).explicitly
      cases obj with
      | none => exact unpacks_null target (apply target) before
      | some obj =>
          have single : [obj].all target.packable := by
            rw [List.all_cons, List.all_nil, Bool.and_true]
            exact packed
          have pointee := @inductionHypothesis [target.default] [obj] rfl single
          simp only [List.all_cons, List.all_nil, Bool.and_true, List.flatMap_cons,
            List.flatMap_nil, List.append_nil, List.map_cons, List.map_nil] at pointee
          exact unpacks_pointer before pointee
  | sharedPtr target inductionHypothesis =>
      refine (unpacks_each (fun before obj packed => ?_) same packed).explicitly
      cases obj with
      | none => exact nomatch packed
      | some obj =>
          have single : [obj].all target.packable := by
            rw [List.all_cons, List.all_nil, Bool.and_true]
            exact packed
          have pointee := @inductionHypothesis [target.default] [obj] rfl single
          simp only [List.all_cons, List.all_nil, Bool.and_true, List.flatMap_cons,
            List.flatMap_nil, List.append_nil, List.map_cons, List.map_nil] at pointee
          exact unpacks_shared before pointee

namespace Ty

def nullFree : (t : Ty) → t.Val → Bool
  | bits _ _, _ => true
  | pair first second, obj => first.nullFree obj.1 && second.nullFree obj.2
  | vector elem, obj => obj.all elem.nullFree
  | array elem _, obj | chunk elem _, obj => (List.ofFn obj).all elem.nullFree
  | string, _ | cString, _ => true
  | pointer _, none | sharedPtr _, none => false
  | pointer target, some obj | sharedPtr target, some obj => target.nullFree obj

def zeroFree : (t : Ty) → t.Val → Bool
  | bits _ _, _ => true
  | pair first second, obj => first.zeroFree obj.1 && second.zeroFree obj.2
  | vector elem, obj => obj.all elem.zeroFree
  | array elem _, obj | chunk elem _, obj => (List.ofFn obj).all elem.zeroFree
  | string, str => decide ((0 : UInt8) ∉ (show Bytes from str))
  | cString, _ => true
  | pointer _, none | sharedPtr _, none => true
  | pointer target, some obj | sharedPtr target, some obj => target.zeroFree obj

end Ty

theorem length_encodeString (str : Bytes) :
    (encodeString str).length = 8 + (8 + (str.length + 1)) := by
  simp [encodeString]

theorem total_eq_iff {α : Type} {encode : α → Bytes} {size : α → Nat}
    {packable sizable nullFree : α → Bool}
    (each : ∀ obj, packable obj → (encode obj).length ≤ size obj ∧
      (sizable obj ∧ size obj = (encode obj).length ↔ nullFree obj))
    {arr : List α} (packed : arr.all packable) :
    (arr.flatMap encode).length ≤ (arr.map size).sum ∧
      (arr.all sizable ∧ (arr.map size).sum = (arr.flatMap encode).length ↔
        arr.all nullFree) := by
  induction arr with
  | nil => simp
  | cons obj arr inductionHypothesis =>
      rw [List.all_cons, Bool.and_eq_true] at packed
      obtain ⟨leFirst, iffFirst⟩ := each obj packed.1
      obtain ⟨leRest, iffRest⟩ := inductionHypothesis packed.2
      simp only [List.flatMap_cons, List.map_cons, List.sum_cons, List.all_cons,
        List.length_append, Bool.and_eq_true, ← iffFirst, ← iffRest]
      constructor
      · omega
      · constructor
        · rintro ⟨⟨sizableFirst, sizableRest⟩, same⟩
          exact ⟨⟨sizableFirst, by omega⟩, sizableRest, by omega⟩
        · rintro ⟨⟨sizableFirst, sameFirst⟩, sizableRest, sameRest⟩
          exact ⟨⟨sizableFirst, sizableRest⟩, by omega⟩

theorem size_eq_iff (t : Ty) {obj : t.Val} (packed : t.packable obj) :
    (t.encode obj).length ≤ t.size obj ∧
      (t.sizable obj ∧ t.size obj = (t.encode obj).length ↔ t.nullFree obj) := by
  induction t with
  | bits size positive =>
      have length : ((Ty.bits size positive).encode obj).length = size := List.length_ofFn ..
      exact ⟨length.le, fun _ => rfl, fun _ => ⟨rfl, length.symm⟩⟩
  | pair first second ihFirst ihSecond =>
      obtain ⟨packedFirst, packedSecond⟩ := (Bool.and_eq_true _ _).mp packed
      obtain ⟨leFirst, iffFirst⟩ := ihFirst packedFirst
      obtain ⟨leSecond, iffSecond⟩ := ihSecond packedSecond
      simp only [Ty.encode, Ty.size, Ty.sizable, Ty.nullFree, List.length_append, Bool.and_eq_true,
        ← iffFirst, ← iffSecond]
      constructor
      · omega
      · constructor
        · rintro ⟨⟨sizableFirst, sizableSecond⟩, same⟩
          exact ⟨⟨sizableFirst, by omega⟩, sizableSecond, by omega⟩
        · rintro ⟨⟨sizableFirst, sameFirst⟩, sizableSecond, sameSecond⟩
          exact ⟨⟨sizableFirst, sizableSecond⟩, by omega⟩
  | vector elem inductionHypothesis =>
      obtain ⟨le, iff⟩ := total_eq_iff (fun _ packed => inductionHypothesis packed) packed
      simp only [Ty.encode, Ty.size, Ty.sizable, Ty.nullFree, List.length_append, length_toBytes,
        ← iff, Nat.add_le_add_iff_left, Nat.add_left_cancel_iff]
      exact ⟨le, trivial⟩
  | array elem n inductionHypothesis =>
      obtain ⟨le, iff⟩ := total_eq_iff (fun _ packed => inductionHypothesis packed) packed
      simp only [Ty.encode, Ty.size, Ty.sizable, Ty.nullFree, List.length_append, length_toBytes,
        ← iff, Nat.add_le_add_iff_left, Nat.add_left_cancel_iff]
      exact ⟨le, trivial⟩
  | chunk elem n inductionHypothesis =>
      obtain ⟨le, iff⟩ := total_eq_iff (fun _ packed => inductionHypothesis packed) packed
      simp only [Ty.encode, Ty.size, Ty.sizable, Ty.nullFree, List.length_append, length_toBytes,
        ← iff, Nat.add_le_add_iff_left, Nat.add_left_cancel_iff]
      exact ⟨le, trivial⟩
  | string =>
      have length := length_encodeString obj
      exact ⟨length.le, fun _ => rfl, fun _ => ⟨rfl, length.symm⟩⟩
  | cString =>
      have length := length_encodeString obj.1
      exact ⟨length.le, fun _ => rfl, fun _ => ⟨rfl, length.symm⟩⟩
  | pointer target inductionHypothesis =>
      cases obj with
      | none => simp [Ty.encode, Ty.size, Ty.nullFree]
      | some obj =>
          obtain ⟨le, iff⟩ := inductionHypothesis packed
          simp only [Ty.encode, Ty.size, Ty.sizable, Ty.nullFree, List.length_append,
            length_toBytes, ← iff, Nat.add_le_add_iff_left, Nat.add_left_cancel_iff]
          exact ⟨le, trivial⟩
  | sharedPtr target inductionHypothesis =>
      cases obj with
      | none => exact nomatch packed
      | some obj =>
          obtain ⟨le, iff⟩ := inductionHypothesis packed
          simp only [Ty.encode, Ty.size, Ty.sizable, Ty.nullFree, List.length_append,
            length_toBytes, ← iff, Nat.add_le_add_iff_left, Nat.add_left_cancel_iff]
          exact ⟨le, trivial⟩

theorem packable_of_nullFree (t : Ty) {obj : t.Val} (nullFree : t.nullFree obj) :
    t.packable obj := by
  induction t with
  | bits size positive => rfl
  | pair first second ihFirst ihSecond =>
      obtain ⟨isFirst, isSecond⟩ := (Bool.and_eq_true _ _).mp nullFree
      exact (Bool.and_eq_true _ _).mpr ⟨ihFirst isFirst, ihSecond isSecond⟩
  | vector elem inductionHypothesis =>
      exact List.all_eq_true.mpr fun obj isMember =>
        inductionHypothesis (List.all_eq_true.mp nullFree obj isMember)
  | array elem n inductionHypothesis =>
      exact List.all_eq_true.mpr fun obj isMember =>
        inductionHypothesis (List.all_eq_true.mp nullFree obj isMember)
  | chunk elem n inductionHypothesis =>
      exact List.all_eq_true.mpr fun obj isMember =>
        inductionHypothesis (List.all_eq_true.mp nullFree obj isMember)
  | string => rfl
  | cString => rfl
  | pointer target inductionHypothesis =>
      cases obj with
      | none => rfl
      | some obj => exact inductionHypothesis nullFree
  | sharedPtr target inductionHypothesis =>
      cases obj with
      | none => exact nomatch nullFree
      | some obj => exact inductionHypothesis nullFree

theorem receivedString_eq_iff (str : Bytes) : receivedString str = str ↔ 0 ∉ str := by
  constructor
  · intro same isMember
    exact (upToZero (str ++ [0])).2 (by rw [← same] at isMember; exact isMember)
  · intro noZero
    have noneStops : ∀ char ∈ str, decide (char ≠ 0) = true := by
      intro char isMember
      simp only [ne_eq, decide_eq_true_eq]
      rintro rfl
      exact noZero isMember
    simp only [receivedString, upToZero]
    rw [List.takeWhile_append_of_pos noneStops]
    simp

section Elements

variable {α : Type} {f : α → α} {unchanged : α → Bool} (each : ∀ obj, f obj = obj ↔ unchanged obj)
include each

theorem map_eq_self_iff (arr : List α) : arr.map f = arr ↔ arr.all unchanged := by
  induction arr with
  | nil => simp
  | cons obj arr inductionHypothesis => simp [inductionHypothesis, each]

theorem comp_eq_self_iff {n : Nat} (obj : Fin n → α) :
    (fun i => f (obj i)) = obj ↔ (List.ofFn obj).all unchanged := by
  simp [funext_iff, each, List.mem_ofFn]

end Elements

theorem received_eq_iff (t : Ty) (obj : t.Val) : t.received obj = obj ↔ t.zeroFree obj := by
  induction t with
  | bits size positive => exact ⟨fun _ => rfl, fun _ => rfl⟩
  | pair first second ihFirst ihSecond =>
      simp only [Ty.zeroFree, Bool.and_eq_true, ← ihFirst, ← ihSecond]
      exact Prod.ext_iff
  | vector elem inductionHypothesis =>
      exact map_eq_self_iff inductionHypothesis obj
  | array elem n inductionHypothesis => exact comp_eq_self_iff inductionHypothesis obj
  | chunk elem n inductionHypothesis => exact comp_eq_self_iff inductionHypothesis obj
  | string =>
      rw [Ty.zeroFree, decide_eq_true_eq]
      exact receivedString_eq_iff obj
  | cString => exact ⟨fun _ => rfl, fun _ => rfl⟩
  | pointer target inductionHypothesis =>
      cases obj with
      | none => exact ⟨fun _ => rfl, fun _ => rfl⟩
      | some obj => exact Option.some_inj.trans (inductionHypothesis obj)
  | sharedPtr target inductionHypothesis =>
      cases obj with
      | none => exact ⟨fun _ => rfl, fun _ => rfl⟩
      | some obj => exact Option.some_inj.trans (inductionHypothesis obj)

section Cleanup

variable {α : Type} {apply : Traversal (List α)}

theorem cleans_vector {obj : List α} (cleans : Cleans (apply obj)) (default : α) :
    Cleans (serializeVector apply default obj) := by
  have objects (sz : Nat) : Cleans fun ser =>
      chunk apply (if ser.mode = .unpack then resize obj sz default else obj) ser :=
    cleans.chunk.congr fun ser isCleanup => by simp [isCleanup]
  exact (cleans_integer 8 obj.length).bind objects

theorem cleans_array {n : Nat} {obj : Fin n → α} (cleans : Cleans (apply (List.ofFn obj))) :
    Cleans (serializeArray apply n obj) :=
  cleans.chunk.map fun arr (i : Fin n) => arr.getD i (obj i)

theorem cleans_string (str : Bytes) : Cleans (serializeString str) := by
  have chars (sz : Nat) : Cleans fun ser =>
      if ser.mode = .unpack then
        (charChunk (List.replicate sz 0) ser).bind fun r =>
          if 0 ∈ r.1 then some ((upToZero r.1).1, r.2) else none
      else (charChunk (str ++ [0]) ser).map fun r => (str, r.2) :=
    ((cleans_charChunk (str ++ [0])).map fun _ => str).congr fun ser isCleanup => by
      simp [isCleanup]
  exact (cleans_integer 8 (str.length + 1)).bind chars

theorem cleans_cString (str : { str : Bytes // 0 ∉ str }) : Cleans (serializeCString str) := by
  intro ser isCleanup
  exact ⟨str, by simp only [serializeCString, isCleanup]⟩

theorem cleans_pointer {target : Ty} {apply : Traversal (List target.Val)} {obj : target.Val}
    (cleans : Cleans (apply [obj])) : Cleans (serializePointer target apply (some obj)) := by
  have rest (sz : Nat) : Cleans (serializePointee target apply (some obj) sz) := by
    intro ser isCleanup
    by_cases isNull : sz = 0
    · exact ⟨some obj, by simp [serializePointee, isNull, isCleanup]⟩
    · obtain ⟨arr, isClean⟩ := cleans ser isCleanup
      exact ⟨none, by simp [serializePointee, isNull, isCleanup, isClean]⟩
  have both : Cleans fun ser => (integer 4 1 ser).bind fun r =>
      serializePointee target apply (some obj) r.1 r.2 := (cleans_integer 4 1).bind rest
  exact both.congr fun ser isCleanup => by simp [serializePointer]

theorem cleans_shared (target : Ty) (apply : Traversal (List target.Val))
    (ptr : Option target.Val) : Cleans (serializeShared target apply ptr) := by
  intro ser isCleanup
  exact ⟨ptr, by simp only [serializeShared, isCleanup]⟩

theorem length_each {serialize : Traversal α} {arr other : List α} {ser next : Serializer}
    (traversed : each serialize arr ser = some (other, next)) : other.length = arr.length := by
  induction arr generalizing ser other next with
  | nil =>
      cases traversed
      rfl
  | cons obj arr inductionHypothesis =>
      simp only [each, Option.bind_eq_some_iff, Option.map_eq_some_iff] at traversed
      obtain ⟨⟨first, middle⟩, -, ⟨rest, last⟩, isRest, same⟩ := traversed
      cases same
      rw [List.length_cons, List.length_cons, inductionHypothesis isRest]

end Cleanup

theorem length_apply (t : Ty) {arr other : List t.Val} {ser next : Serializer}
    (isCleanup : ser.mode = .cleanup) (traversed : apply t arr ser = some (other, next)) :
    other.length = arr.length := by
  cases t with
  | bits size positive =>
      simp only [apply, bitwise, isCleanup] at traversed
      cases traversed
      rfl
  | pair | vector | array | chunk | string | cString | pointer | sharedPtr =>
      simp only [apply, explicitly, isCleanup] at traversed
      exact length_each traversed

theorem cleans_amp {t : Ty} {obj : t.Val} (cleans : Cleans (apply t [obj])) :
    Cleans (amp (apply t) obj) := by
  intro ser isCleanup
  obtain ⟨arr, isClean⟩ := cleans ser isCleanup
  obtain ⟨other, rfl⟩ := List.length_eq_one_iff.mp (length_apply t isCleanup isClean)
  exact ⟨other, by simp [amp, isClean]⟩

theorem cleans_apply (t : Ty) {arr : List t.Val} (nullFree : arr.all t.nullFree) :
    Cleans (apply t arr) := by
  rw [List.all_eq_true] at nullFree
  induction t with
  | bits size positive => exact cleans_bitwise arr
  | pair first second ihFirst ihSecond =>
      refine (cleans_each fun obj isMember => ?_).explicitly
      obtain ⟨isFirst, isSecond⟩ := (Bool.and_eq_true _ _).mp (nullFree obj isMember)
      have x : Cleans (apply first [obj.1]) := ihFirst (by simpa using isFirst)
      have y : Cleans (apply second [obj.2]) := ihSecond (by simpa using isSecond)
      exact (cleans_amp x).bind fun x => (cleans_amp y).map fun y => (x, y)
  | vector elem inductionHypothesis =>
      refine (cleans_each fun obj isMember => ?_).explicitly
      exact cleans_vector (inductionHypothesis (List.all_eq_true.mp (nullFree obj isMember))) _
  | array elem n inductionHypothesis =>
      refine (cleans_each fun obj isMember => ?_).explicitly
      exact cleans_array (inductionHypothesis (List.all_eq_true.mp (nullFree obj isMember)))
  | chunk elem n inductionHypothesis =>
      refine (cleans_each fun obj isMember => ?_).explicitly
      exact cleans_array (inductionHypothesis (List.all_eq_true.mp (nullFree obj isMember)))
  | string => exact (cleans_each fun obj _ => cleans_string obj).explicitly
  | cString => exact (cleans_each fun obj _ => cleans_cString obj).explicitly
  | pointer target inductionHypothesis =>
      refine (cleans_each fun obj isMember => ?_).explicitly
      have notNull := nullFree obj isMember
      cases obj with
      | none => exact nomatch notNull
      | some obj =>
          have pointee : target.nullFree obj := notNull
          exact cleans_pointer (inductionHypothesis (by simpa using pointee))
  | sharedPtr target =>
      exact (cleans_each fun obj _ => cleans_shared target (apply target) obj).explicitly

end CnC.Serialize
