import CnC.Serialize.Encoding

/-!
# Round trips

The values which are packed into a message are compared with the values which its receiver
unpacks, and the computed sizes with what the packing appends.
-/

namespace CnC.Serialize

/-- A message with the given body has arrived, and nothing has been unpacked. -/
def Serializer.Received (ser : Serializer) (message : Bytes) : Prop :=
  ser.mode = .unpack ∧ ser.buf.At message 0

def unpackIds (ser : Serializer) : Option ((Nat × Nat) × Serializer) :=
  (integer 4 0 ser).bind fun (context, ser) =>
    (integer 4 0 ser).map fun (distributable, ser) => ((context, distributable), ser)

/-- The size of an object which is computed in the mode `packedSize`. -/
def packedSizeOf (obj : Obj) : Option Nat :=
  (amp (apply obj.1) obj.2 (.create false false)).map fun (_, ser) => ser.packedSize

/-- The values of an `int`. -/
abbrev Id := Fin (2 ^ 32)

/-- In a message with the identifiers, whatever follows it, the receiver unpacks these and the
values which were packed, and no more. -/
def ArriveIn (context distributable : Id) (values : List Obj) : Prop :=
  ∃ fresh packed message,
    newSerializer context distributable = some fresh ∧ packAll values fresh = some packed ∧
    packed.buf.bodyBytes = some message ∧
    ∀ further receiver, receiver.Received (message ++ further) →
      ∃ opened last,
        unpackIds receiver = some ((context.val, distributable.val), opened) ∧
        unpackAll (values.map Sigma.fst) opened = some (values, last) ∧
        last.buf.bodySize = message.length

def Arrive (values : List Obj) : Prop :=
  ∀ context distributable, ArriveIn context distributable values

def Measured (values : List Obj) : Prop :=
  ∀ context distributable before obj after, values = before ++ obj :: after →
    ∃ fresh packed next size,
      newSerializer context distributable = some fresh ∧ packAll before fresh = some packed ∧
      packAll [obj] packed = some next ∧ packedSizeOf obj = some size ∧
      next.buf.bodySize = packed.buf.bodySize + size

/-- The memory of every value can be released. -/
def Released (values : List Obj) : Prop :=
  ∀ obj ∈ values, ∀ ser : Serializer, ser.mode = .cleanup →
    (amp (apply obj.1) obj.2 ser).isSome

namespace Obj

def encode (obj : Obj) : Bytes := obj.1.encode obj.2

def packable (obj : Obj) : Bool := obj.1.packable obj.2

def size (obj : Obj) : Nat := obj.1.size obj.2

def sizable (obj : Obj) : Bool := obj.1.sizable obj.2

def received (obj : Obj) : Obj := ⟨obj.1, obj.1.received obj.2⟩

def receivable (obj : Obj) : Bool := obj.1.receivable obj.2

def nullFree (obj : Obj) : Bool := obj.1.nullFree obj.2

def zeroFree (obj : Obj) : Bool := obj.1.zeroFree obj.2

end Obj

def idBytes (context distributable : Nat) : Bytes :=
  toBytes 4 context ++ toBytes 4 distributable

/-- There is memory for the message: an allocation has at most `2 ^ 63` bytes. -/
def Fits (values : List Obj) : Prop :=
  maxHeaderSize + 8 + (values.flatMap Obj.encode).length ≤ 2 ^ 63

theorem packs_amp (obj : Obj) :
    Packs (amp (apply obj.1) obj.2) obj.2 obj.packable obj.encode := by
  have packs := packs_apply obj.1 [obj.2]
  simp only [List.all_cons, List.all_nil, Bool.and_true, List.flatMap_cons, List.flatMap_nil,
    List.append_nil] at packs
  exact packs.amp

theorem packs_packAll (values : List Obj) :
    Packs (fun ser => (packAll values ser).map fun ser => ((), ser)) () (values.all Obj.packable)
      (values.flatMap Obj.encode) := by
  induction values with
  | nil => exact .pure ()
  | cons obj values inductionHypothesis =>
      have both : Packs (fun ser => (amp (apply obj.1) obj.2 ser).bind fun r =>
          (packAll values r.2).map fun ser => ((), ser)) ()
          (obj.packable && values.all Obj.packable)
          (obj.encode ++ values.flatMap Obj.encode) := (packs_amp obj).bind inductionHypothesis
      refine both.congr fun ser _ => ?_
      rw [packAll, Option.map_bind]
      rfl

theorem unpacks_amp (obj : Obj) (packed : obj.packable) (before : obj.1.Val) :
    Unpacks (amp (apply obj.1) before) (obj.1.received obj.2) obj.receivable obj.encode := by
  have unpacks := @unpacks_apply obj.1 [before] [obj.2] rfl
    (by rw [List.all_cons, List.all_nil, Bool.and_true]; exact packed)
  simp only [List.all_cons, List.all_nil, Bool.and_true, List.flatMap_cons, List.flatMap_nil,
    List.append_nil, List.map_cons, List.map_nil] at unpacks
  exact unpacks.amp

theorem unpacks_unpackAll {values : List Obj} (packed : values.all Obj.packable) :
    Unpacks (unpackAll (values.map Sigma.fst)) (values.map Obj.received)
      (values.all Obj.receivable) (values.flatMap Obj.encode) := by
  induction values with
  | nil => exact .pure []
  | cons obj values inductionHypothesis =>
      rw [List.all_cons, Bool.and_eq_true] at packed
      have rest := (inductionHypothesis packed.2).map (Obj.received obj :: ·)
      exact (unpacks_amp obj packed.1 obj.1.default).bind rest

theorem unpacks_unpackIds (context distributable : Id) :
    Unpacks unpackIds (context.val, distributable.val) true
      (idBytes context distributable) := by
  have first := unpacks_integer 4 0 context
  have second := (unpacks_integer 4 0 distributable).map fun id => (context.val, id)
  rw [Nat.mod_eq_of_lt (by omega)] at first second
  exact first.bind second

theorem packedSizeOf_eq (obj : Obj) :
    packedSizeOf obj = if obj.sizable then some obj.size else none := by
  have sizes := sizes_apply obj.1 [obj.2]
  simp only [List.all_cons, List.all_nil, Bool.and_true, List.map_cons, List.map_nil,
    List.sum_cons, List.sum_nil, Nat.add_zero] at sizes
  have isSize := sizes.amp (.create false false) rfl
  rw [packedSizeOf, isSize]
  change Option.map _ (if obj.sizable then _ else none) = _
  cases obj.sizable with
  | true => simp [Serializer.create, Obj.size]
  | false => rfl

namespace Buffer

variable {b : Buffer} {all bytes : Bytes} {k : Nat}

theorem at_of_create (addCRC addSize : Bool) (short : bytes.length ≤ 48) :
    ∃ next, (Buffer.create addCRC addSize).acquire true bytes.length = .ok (maxHeaderSize, next) ∧
      (next.store maxHeaderSize bytes).At bytes bytes.length := by
  obtain ⟨inside, -⟩ := @acquire_of_empty (Buffer.create addCRC addSize) rfl rfl rfl rfl rfl
    bytes.length (by omega)
  have room : bytes.length + maxHeaderSize ≤ max 64 (2 ^ Nat.clog 2 bytes.length) :=
    le_max_of_le_left (by simpa [maxHeaderSize, crcSize] using short)
  obtain ⟨next, isNext, acquired⟩ := inside (by omega) room
  have position : next.curr = maxHeaderSize + bytes.length := acquired.position
  refine ⟨next, isNext, acquired.toAllocated.store _ _, ?_, ?_, position, le_rfl⟩
  · exact position ▸ acquired.currLe
  · intro i isByte
    have stored : maxHeaderSize ≤ maxHeaderSize + i ∧
        maxHeaderSize + i < maxHeaderSize + bytes.length := by omega
    simp only [store]
    rw [if_pos stored, Nat.add_sub_cancel_left]

theorem At.bodySize (isAt : b.At all k) : b.bodySize = k := by
  rw [Buffer.bodySize, isAt.position, isAt.body, Nat.add_sub_cancel_left]

theorem At.bodyBytes (isAt : b.At all all.length) : b.bodyBytes = some all := by
  rw [Buffer.bodyBytes, isAt.bodySize, isAt.body]
  exact load_eq isAt.holds

theorem At.restart (isAt : b.At all k) : b.restart.At all 0 := by
  have allocated := allocated_restart isAt.allocated isAt.power
  have fits := isAt.fits
  have holds := isAt.holds
  rw [Buffer.restart, if_pos isAt.allocated] at allocated ⊢
  exact ⟨allocated, fits, holds, rfl, Nat.zero_le _⟩

end Buffer

theorem toOption_ok {α β : Type} (x : β) : (Except.ok x : Except α β).toOption = some x :=
  rfl

theorem newSerializer_at (context distributable : Nat) :
    ∃ fresh, newSerializer context distributable = some fresh ∧ fresh.mode = .pack ∧
      fresh.buf.At (idBytes context distributable) (idBytes context distributable).length := by
  obtain ⟨next, isNext, isAt⟩ := @Buffer.at_of_create (toBytes 4 context) false true
    (by rw [length_toBytes]; decide)
  have isReset : (Buffer.create false true).reset true false true false =
      .ok (Buffer.create false true) := rfl
  obtain ⟨last, isLast, hasLast⟩ := packs_integer 4 distributable
    { buf := next.store maxHeaderSize (toBytes 4 context), packedSize := 0, mode := .pack }
    _ rfl isAt.toCells (by simp [maxHeaderSize, crcSize])
  have isAtLast := Buffer.Cells.toAt (by rw [List.map_append]; exact hasLast)
  refine ⟨{ buf := last, packedSize := 0, mode := .pack }, ?_, rfl, isAtLast⟩
  have first : integer 4 context
      { buf := .create false true, packedSize := 0, mode := .pack } = some (context,
      { buf := next.store maxHeaderSize (toBytes 4 context), packedSize := 0, mode := .pack }) := by
    have packed := @packBytes_of_acquire
      { buf := .create false true, packedSize := 0, mode := .pack } _ _ _ isNext
    simp only [integer, packed, Option.map_some]
  unfold newSerializer
  rw [isReset, toOption_ok, Option.bind_some, first, Option.bind_some]
  simp only [isLast, Option.map_some]

section Message

variable {fresh : Serializer} {ids : Bytes} {values : List Obj}

theorem packAll_cells {cells : List (Option UInt8)} (isPack : fresh.mode = .pack)
    (hasCells : fresh.buf.Cells cells)
    (fits : maxHeaderSize + cells.length + (values.flatMap Obj.encode).length ≤ 2 ^ 63) :
    (values.all Obj.packable → ∃ next, packAll values fresh = some { fresh with buf := next } ∧
      next.Cells (cells ++ (values.flatMap Obj.encode).map some)) ∧
    (values.all Obj.packable = false → packAll values fresh = none) := by
  have packs := packs_packAll values fresh cells isPack hasCells fits
  constructor
  · intro packed
    rw [if_pos packed] at packs
    obtain ⟨next, isNext, hasNext⟩ := packs
    refine ⟨next, ?_, hasNext⟩
    obtain ⟨last, isLast, same⟩ := Option.map_eq_some_iff.mp isNext
    rw [isLast, ← (Prod.mk.inj same).2]
  · intro notPacked
    rw [if_neg (by rw [notPacked]; exact Bool.false_ne_true)] at packs
    exact Option.map_eq_none_iff.mp packs

theorem packAll_eq (isPack : fresh.mode = .pack) (isAt : fresh.buf.At ids ids.length)
    (fits : maxHeaderSize + ids.length + (values.flatMap Obj.encode).length ≤ 2 ^ 63) :
    (values.all Obj.packable → ∃ next, packAll values fresh = some { fresh with buf := next } ∧
      next.At (ids ++ values.flatMap Obj.encode) (ids ++ values.flatMap Obj.encode).length) ∧
    (values.all Obj.packable = false → packAll values fresh = none) := by
  obtain ⟨packs, fails⟩ := packAll_cells isPack isAt.toCells (by rwa [List.length_map])
  refine ⟨fun packed => ?_, fails⟩
  obtain ⟨next, isNext, hasNext⟩ := packs packed
  exact ⟨next, isNext, Buffer.Cells.toAt (by rw [List.map_append]; exact hasNext)⟩

theorem all_packable_of_packAll {packed : Serializer} (isPack : fresh.mode = .pack)
    (isAt : fresh.buf.At ids ids.length)
    (fits : maxHeaderSize + ids.length + (values.flatMap Obj.encode).length ≤ 2 ^ 63)
    (isPacked : packAll values fresh = some packed) :
    values.all Obj.packable ∧ packed.mode = .pack ∧
      packed.buf.At (ids ++ values.flatMap Obj.encode)
        (ids ++ values.flatMap Obj.encode).length := by
  obtain ⟨packs, fails⟩ := packAll_eq isPack isAt fits
  cases all : values.all Obj.packable with
  | false =>
      rw [fails all] at isPacked
      exact nomatch isPacked
  | true =>
      obtain ⟨next, isNext, isAtNext⟩ := packs all
      cases isNext.symm.trans isPacked
      exact ⟨rfl, isPack, isAtNext⟩

end Message

theorem length_idBytes (context distributable : Nat) :
    (idBytes context distributable).length = 8 := by
  rw [idBytes, List.length_append, length_toBytes, length_toBytes]

theorem unpack_message {α : Type} {f : Serializer → Option (α × Serializer)} {x : α} {ok : Bool}
    {bytes further : Bytes} (unpacks : Unpacks f x ok bytes) {context distributable : Id}
    {receiver : Serializer}
    (isReceived : receiver.Received (idBytes context distributable ++ bytes ++ further)) :
    ∃ opened, unpackIds receiver = some ((context.val, distributable.val), opened) ∧
      if ok then
        ∃ last, f opened = some (x, last) ∧
          last.buf.bodySize = (idBytes context distributable ++ bytes).length
      else f opened = none := by
  obtain ⟨isUnpack, isAt⟩ := isReceived
  have idsFirst : idBytes context distributable <+: (idBytes context distributable ++
      bytes ++ further).drop 0 := by
    rw [List.drop_zero, List.append_assoc]
    exact List.prefix_append ..
  obtain ⟨next, isNext, isAtNext⟩ :=
    unpacks_unpackIds context distributable receiver _ 0 isUnpack isAt idsFirst
  refine ⟨_, isNext, ?_⟩
  have further : bytes <+: (idBytes context distributable ++ bytes ++ further).drop
      (0 + (idBytes context distributable).length) := by
    rw [Nat.zero_add, List.append_assoc, List.drop_left]
    exact List.prefix_append ..
  have later := unpacks { receiver with buf := next } _ _ isUnpack isAtNext further
  cases ok with
  | true =>
      obtain ⟨last, isLast, isAtLast⟩ := later
      refine ⟨_, isLast, ?_⟩
      rw [isAtLast.bodySize, List.length_append, Nat.zero_add]
  | false => exact later

theorem Obj.received_eq_iff (obj : Obj) : obj.received = obj ↔ obj.zeroFree := by
  obtain ⟨t, obj⟩ := obj
  have iff := Serialize.received_eq_iff t obj
  simp only [Obj.received, Obj.zeroFree, Sigma.mk.inj_iff, heq_eq_eq, true_and]
  exact iff

theorem arriveIn_iff {values : List Obj} (fits : Fits values) (context distributable : Id) :
    ArriveIn context distributable values ↔ values.all Obj.packable ∧ values.all Obj.receivable ∧
      values.all Obj.zeroFree := by
  have fits' : maxHeaderSize + (idBytes context distributable).length +
      (values.flatMap Obj.encode).length ≤ 2 ^ 63 := by
    rw [length_idBytes]
    exact fits
  constructor
  · rintro ⟨fresh, packed, message, isFresh, isPacked, isMessage, received⟩
    obtain ⟨other, isOther, isPack, isAt⟩ := newSerializer_at context distributable
    cases isOther.symm.trans isFresh
    obtain ⟨packable, -, isAtPacked⟩ := all_packable_of_packAll isPack isAt fits' isPacked
    cases isAtPacked.bodyBytes.symm.trans isMessage
    have isReceived : Serializer.Received
        { packed with buf := packed.buf.restart, mode := .unpack }
        (idBytes context distributable ++ values.flatMap Obj.encode ++ []) := by
      rw [List.append_nil]
      exact ⟨rfl, isAtPacked.restart⟩
    obtain ⟨opened, last, isOpened, isUnpacked, -⟩ := received [] _ isReceived
    obtain ⟨opened', isOpened', unpacks⟩ := unpack_message (unpacks_unpackAll packable) isReceived
    cases isOpened'.symm.trans isOpened
    cases receivable : values.all Obj.receivable with
    | false =>
        rw [if_neg (by rw [receivable]; exact Bool.false_ne_true), isUnpacked] at unpacks
        exact nomatch unpacks
    | true =>
        rw [if_pos receivable] at unpacks
        obtain ⟨last', isLast, -⟩ := unpacks
        rw [isUnpacked] at isLast
        have same : values = values.map Obj.received :=
          (Prod.mk.inj (Option.some.inj isLast)).1
        exact ⟨packable, rfl, (map_eq_self_iff Obj.received_eq_iff values).mp same.symm⟩
  · rintro ⟨packable, receivable, zeroFree⟩
    obtain ⟨fresh, isFresh, isPack, isAt⟩ := newSerializer_at context distributable
    obtain ⟨next, isNext, isAtNext⟩ := (packAll_eq isPack isAt fits').1 packable
    refine ⟨fresh, _, _, isFresh, isNext, isAtNext.bodyBytes, fun further receiver isReceived => ?_⟩
    obtain ⟨opened, isOpened, unpacks⟩ := unpack_message (unpacks_unpackAll packable) isReceived
    rw [if_pos receivable, (map_eq_self_iff Obj.received_eq_iff values).mpr zeroFree] at unpacks
    obtain ⟨last, isLast, consumed⟩ := unpacks
    exact ⟨opened, last, isOpened, isLast, consumed⟩

theorem arrive_iff {values : List Obj} (fits : Fits values) :
    Arrive values ↔ values.all Obj.packable ∧ values.all Obj.receivable ∧
      values.all Obj.zeroFree :=
  ⟨fun arrive => (arriveIn_iff fits 0 0).mp (arrive 0 0),
    fun holds context distributable => (arriveIn_iff fits context distributable).mpr holds⟩

theorem fits_split {before after : List Obj} {obj : Obj} (fits : Fits (before ++ obj :: after)) :
    maxHeaderSize + 8 + (before.flatMap Obj.encode).length + obj.encode.length ≤ 2 ^ 63 := by
  simp only [Fits, List.flatMap_append, List.flatMap_cons, List.length_append] at fits
  omega

theorem measured_iff {values : List Obj} (fits : Fits values) :
    Measured values ↔ values.all Obj.nullFree := by
  rw [List.all_eq_true]
  constructor
  · intro measured obj isMember
    obtain ⟨before, after, rfl⟩ := List.append_of_mem isMember
    have room := fits_split fits
    obtain ⟨fresh, packed, next, size, isFresh, isPacked, isNext, isSize, appended⟩ :=
      measured 0 0 before obj after rfl
    obtain ⟨other, isOther, isPack, isAt⟩ := newSerializer_at 0 0
    cases isOther.symm.trans isFresh
    have roomBefore : maxHeaderSize + (idBytes 0 0).length + (before.flatMap Obj.encode).length ≤
        2 ^ 63 := by
      rw [length_idBytes]
      omega
    obtain ⟨-, isPack', isAt'⟩ := all_packable_of_packAll isPack isAt roomBefore isPacked
    have roomObj : maxHeaderSize + (idBytes 0 0 ++ before.flatMap Obj.encode).length +
        ([obj].flatMap Obj.encode).length ≤ 2 ^ 63 := by
      rw [List.length_append, length_idBytes, List.flatMap_singleton]
      omega
    obtain ⟨packable, -, isAtNext⟩ := all_packable_of_packAll isPack' isAt' roomObj isNext
    rw [List.all_cons, List.all_nil, Bool.and_true] at packable
    rw [packedSizeOf_eq] at isSize
    rw [isAtNext.bodySize, isAt'.bodySize, List.length_append, List.flatMap_singleton] at appended
    obtain ⟨-, iff⟩ := size_eq_iff obj.1 packable
    cases sizable : obj.sizable with
    | false =>
        rw [if_neg (by rw [sizable]; exact Bool.false_ne_true)] at isSize
        exact nomatch isSize
    | true =>
        rw [if_pos sizable] at isSize
        have same : obj.size = size := Option.some.inj isSize
        have length : obj.1.size obj.2 = (obj.1.encode obj.2).length := by
          change obj.size = obj.encode.length
          omega
        exact iff.mp ⟨sizable, length⟩
  · intro nullFree context distributable before obj after same
    subst same
    have room := fits_split fits
    have packable (other : Obj) (isMember : other ∈ before ++ obj :: after) : other.packable :=
      packable_of_nullFree other.1 (nullFree other isMember)
    obtain ⟨fresh, isFresh, isPack, isAt⟩ := newSerializer_at context distributable
    have roomBefore : maxHeaderSize + (idBytes context distributable).length +
        (before.flatMap Obj.encode).length ≤ 2 ^ 63 := by
      rw [length_idBytes]
      omega
    obtain ⟨packed, isPacked, isAtPacked⟩ := (packAll_eq isPack isAt roomBefore).1
      (List.all_eq_true.mpr fun other isMember => packable other (by simp [isMember]))
    have roomObj : maxHeaderSize +
        (idBytes context distributable ++ before.flatMap Obj.encode).length +
        ([obj].flatMap Obj.encode).length ≤ 2 ^ 63 := by
      rw [List.length_append, length_idBytes, List.flatMap_singleton]
      omega
    have objPackable := packable obj (by simp)
    obtain ⟨next, isNext, isAtNext⟩ :=
      (@packAll_eq { fresh with buf := packed } _ [obj] isPack isAtPacked roomObj).1
        (by rw [List.all_cons, List.all_nil, Bool.and_true]; exact objPackable)
    obtain ⟨-, iff⟩ := size_eq_iff obj.1 objPackable
    obtain ⟨sizable, length⟩ := iff.mpr (nullFree obj (by simp))
    refine ⟨fresh, _, _, obj.size, isFresh, isPacked, isNext, ?_, ?_⟩
    · rw [packedSizeOf_eq]
      exact if_pos sizable
    · rw [isAtNext.bodySize, isAtPacked.bodySize, List.length_append, List.flatMap_singleton]
      exact congrArg _ length.symm

theorem released_of_nullFree {values : List Obj} (nullFree : values.all Obj.nullFree) :
    Released values := by
  intro obj isMember ser isCleanup
  have objNullFree := List.all_eq_true.mp nullFree obj isMember
  have cleans : Cleans (apply obj.1 [obj.2]) :=
    cleans_apply obj.1 (by rw [List.all_cons, List.all_nil, Bool.and_true]; exact objNullFree)
  obtain ⟨other, isClean⟩ := cleans_amp cleans ser isCleanup
  rw [isClean]
  rfl

namespace Ty

def built (strings : Bool) : Ty → Bool
  | bits _ _ => true
  | pair first second => first.built strings && second.built strings
  | vector elem | array elem _ | chunk elem _ => elem.built strings
  | string => strings
  | cString | pointer _ | sharedPtr _ => false

theorem transfers_of_built {strings : Bool} {t : Ty} (isBuilt : t.built strings) (obj : t.Val) :
    t.nullFree obj ∧ t.receivable obj ∧ (strings = false → t.zeroFree obj) := by
  induction t with
  | bits size positive => exact ⟨rfl, rfl, fun _ => rfl⟩
  | pair first second ihFirst ihSecond =>
      obtain ⟨isFirst, isSecond⟩ := (Bool.and_eq_true _ _).mp isBuilt
      obtain ⟨nullFirst, receivableFirst, zeroFirst⟩ := ihFirst isFirst obj.1
      obtain ⟨nullSecond, receivableSecond, zeroSecond⟩ := ihSecond isSecond obj.2
      exact ⟨(Bool.and_eq_true _ _).mpr ⟨nullFirst, nullSecond⟩,
        (Bool.and_eq_true _ _).mpr ⟨receivableFirst, receivableSecond⟩,
        fun none => (Bool.and_eq_true _ _).mpr ⟨zeroFirst none, zeroSecond none⟩⟩
  | vector elem inductionHypothesis =>
      have each := inductionHypothesis isBuilt
      exact ⟨List.all_eq_true.mpr fun obj _ => (each obj).1,
        List.all_eq_true.mpr fun obj _ => (each obj).2.1,
        fun none => List.all_eq_true.mpr fun obj _ => (each obj).2.2 none⟩
  | array elem n inductionHypothesis =>
      have each := inductionHypothesis isBuilt
      exact ⟨List.all_eq_true.mpr fun obj _ => (each obj).1,
        List.all_eq_true.mpr fun obj _ => (each obj).2.1,
        fun none => List.all_eq_true.mpr fun obj _ => (each obj).2.2 none⟩
  | chunk elem n inductionHypothesis =>
      have each := inductionHypothesis isBuilt
      exact ⟨List.all_eq_true.mpr fun obj _ => (each obj).1,
        List.all_eq_true.mpr fun obj _ => (each obj).2.1,
        fun none => List.all_eq_true.mpr fun obj _ => (each obj).2.2 none⟩
  | string => exact ⟨rfl, rfl, fun none => nomatch isBuilt.symm.trans none⟩
  | cString | pointer | sharedPtr => exact nomatch isBuilt

end Ty

theorem built_roundTrip_iff {strings : Bool} {values : List Obj}
    (isBuilt : ∀ obj ∈ values, obj.1.built strings) (fits : Fits values) :
    Arrive values ∧ Measured values ↔ values.all Obj.zeroFree := by
  have nullFree (obj : Obj) (isMember : obj ∈ values) : obj.nullFree :=
    (Ty.transfers_of_built (isBuilt obj isMember) obj.2).1
  have receivable (obj : Obj) (isMember : obj ∈ values) : obj.receivable :=
    (Ty.transfers_of_built (isBuilt obj isMember) obj.2).2.1
  have packable (obj : Obj) (isMember : obj ∈ values) : obj.packable :=
    packable_of_nullFree obj.1 (nullFree obj isMember)
  rw [arrive_iff fits, measured_iff fits]
  constructor
  · exact fun holds => holds.1.2.2
  · exact fun zeroFree => ⟨⟨List.all_eq_true.mpr packable, List.all_eq_true.mpr receivable,
      zeroFree⟩, List.all_eq_true.mpr nullFree⟩

/-- Values without strings and pointers arrive, and their sizes are computed. -/
theorem plain_roundTrip (values : List Obj) (plain : ∀ obj ∈ values, obj.1.built false)
    (fits : Fits values) : Arrive values ∧ Measured values := by
  refine (built_roundTrip_iff plain fits).mpr (List.all_eq_true.mpr fun obj isMember => ?_)
  exact (Ty.transfers_of_built (plain obj isMember) obj.2).2.2 rfl

def plainValues : List Obj :=
  [⟨.pair (.bits 4 (by decide)) (.vector (.bits 1 (by decide))),
      (fun _ => 7, [fun _ => 1, fun _ => 0])⟩,
    ⟨.array (.vector (.bits 2 (by decide))) 2, fun i => List.replicate i fun _ => 3⟩]

theorem plain_roundTrip_values : Arrive plainValues ∧ Measured plainValues := by
  refine plain_roundTrip plainValues (by simp [plainValues, Ty.built]) ?_
  have length : (plainValues.flatMap Obj.encode).length = 64 := rfl
  rw [Fits, length]
  decide

/-- The round trip of values with strings works if and only if no string holds a zero. -/
theorem string_roundTrip_iff (values : List Obj) (textual : ∀ obj ∈ values, obj.1.built true)
    (fits : Fits values) : Arrive values ∧ Measured values ↔ values.all Obj.zeroFree :=
  built_roundTrip_iff textual fits

def stringValues (byte : UInt8) : List Obj :=
  [⟨.string, [97, byte, 98]⟩, ⟨.bits 1 (by decide), fun _ => 5⟩]

theorem stringValues_fits (byte : UInt8) : Fits (stringValues byte) := by
  have length : ((stringValues byte).flatMap Obj.encode).length = 21 := rfl
  rw [Fits, length]
  decide

theorem string_roundTrip_text :
    Arrive (stringValues 110) ∧ Measured (stringValues 110) ↔
      (stringValues 110).all Obj.zeroFree :=
  string_roundTrip_iff (stringValues 110) (by simp [stringValues, Ty.built])
    (stringValues_fits 110)

/-- A string of three characters arrives as one of one character. -/
theorem string_roundTrip_fails : ¬ (Arrive (stringValues 0) ∧ Measured (stringValues 0)) := by
  rintro ⟨arrive, -⟩
  exact absurd ((arrive_iff (stringValues_fits 0)).mp arrive).2.2 (by decide)

/-- No string of the type `const char *` arrives, whatever surrounds it. -/
theorem cString_never_arrives (context distributable : Id) (before after : List Obj)
    (str : { str : Bytes // 0 ∉ str }) (fits : Fits (before ++ ⟨.cString, str⟩ :: after)) :
    ¬ ArriveIn context distributable (before ++ ⟨.cString, str⟩ :: after) := by
  intro arrive
  have receivable := ((arriveIn_iff fits context distributable).mp arrive).2.1
  exact nomatch List.all_eq_true.mp receivable ⟨.cString, str⟩ (by simp)

/-- A string of one character, and a number behind it. -/
def cStringValues : List Obj :=
  [⟨.cString, ⟨[97], by decide⟩⟩, ⟨.bits 1 (by decide), fun _ => 5⟩]

theorem cStringValues_fits : Fits cStringValues := by
  have length : (cStringValues.flatMap Obj.encode).length = 19 := rfl
  rw [Fits, length]
  decide

theorem cString_never_arrives_first : ¬ ArriveIn 1 2 cStringValues :=
  cString_never_arrives 1 2 [] _ ⟨[97], by decide⟩ cStringValues_fits

theorem cString_fails : ¬ Arrive cStringValues := by
  intro arrive
  exact absurd ((arrive_iff cStringValues_fits).mp arrive).2.1 (by decide)

/-- Values with pointers make the round trip if and only if no pointer is null, and no string
is in the way. -/
theorem pointer_roundTrip_iff (values : List Obj) (fits : Fits values) :
    Arrive values ∧ Measured values ∧ Released values ↔
      ∀ obj ∈ values, obj.nullFree ∧ obj.zeroFree ∧ obj.receivable := by
  rw [arrive_iff fits, measured_iff fits]
  simp only [List.all_eq_true]
  constructor
  · rintro ⟨⟨-, receivable, zeroFree⟩, nullFree, -⟩ obj isMember
    exact ⟨nullFree obj isMember, zeroFree obj isMember, receivable obj isMember⟩
  · intro holds
    refine ⟨⟨?_, fun obj isMember => (holds obj isMember).2.2,
      fun obj isMember => (holds obj isMember).2.1⟩, fun obj isMember => (holds obj isMember).1, ?_⟩
    · exact fun obj isMember => packable_of_nullFree obj.1 (holds obj isMember).1
    · exact released_of_nullFree (List.all_eq_true.mpr fun obj isMember => (holds obj isMember).1)

def pointerValues (ptr : Option (Fin 4 → UInt8)) : List Obj :=
  [⟨.pointer (.bits 4 (by decide)), ptr⟩,
    ⟨.vector (.sharedPtr (.bits 1 (by decide))), [some fun _ => 1, some fun _ => 2]⟩]

theorem pointerValues_fits (ptr : Option (Fin 4 → UInt8)) : Fits (pointerValues ptr) := by
  have length : ((pointerValues ptr).flatMap Obj.encode).length ≤ 50 := by
    cases ptr with
    | none => decide
    | some obj => exact Nat.le_of_lt_succ (Nat.lt_of_sub_eq_succ rfl)
  rw [Fits]
  simp only [maxHeaderSize, crcSize]
  omega

theorem pointer_roundTrip_object :
    Arrive (pointerValues (some fun _ => 9)) ∧ Measured (pointerValues (some fun _ => 9)) ∧
        Released (pointerValues (some fun _ => 9)) ↔
      ∀ obj ∈ pointerValues (some fun _ => 9), obj.nullFree ∧ obj.zeroFree ∧ obj.receivable :=
  pointer_roundTrip_iff _ (pointerValues_fits _)

/-- Sixteen bytes are computed for a null pointer to an integer, and four are packed. -/
theorem pointer_roundTrip_fails :
    ¬ (Arrive (pointerValues none) ∧ Measured (pointerValues none) ∧
      Released (pointerValues none)) := by
  rintro ⟨-, measured, -⟩
  exact absurd ((measured_iff (pointerValues_fits none)).mp measured) (by decide)

end CnC.Serialize
