import CnC.Serialize.Deferred

/-!
# Batched messages of an item collection

The number of tags in a message is known only when the message is sent.  Its place is reserved
in front of the tags.
-/

namespace CnC.Serialize

/-- A type of tags or items.  Its objects are given to `operator&`, and those which are `good`
are unpacked as they were packed. -/
structure Codec (α : Type) where
  serialize : Traversal α
  default : α
  encode : α → Bytes
  good : α → Prop
  packs : ∀ obj, good obj → Packs (serialize obj) obj true (encode obj)
  unpacks : ∀ obj, good obj → ∀ before, Unpacks (serialize before) obj true (encode obj)
  cleans : ∀ obj, good obj → Cleans (serialize obj)

/-- The types of the serializer.  No pointer of a good value is null, and no string is in the
way. -/
def Ty.codec (t : Ty) : Codec t.Val where
  serialize := amp (Serialize.apply t)
  default := t.default
  encode := t.encode
  good obj := t.nullFree obj ∧ t.zeroFree obj ∧ t.receivable obj
  packs obj good := by
    have packs := packs_amp ⟨t, obj⟩
    rw [show Obj.packable ⟨t, obj⟩ = true from packable_of_nullFree t good.1] at packs
    exact packs
  unpacks obj good before := by
    have unpacks := unpacks_amp ⟨t, obj⟩ (packable_of_nullFree t good.1) before
    rw [show Obj.receivable ⟨t, obj⟩ = true from good.2.2,
      (received_eq_iff t obj).mpr good.2.1] at unpacks
    exact unpacks
  cleans obj good := by
    have one : [obj].all t.nullFree := by
      rw [List.all_cons, List.all_nil, Bool.and_true]
      exact good.1
    exact cleans_amp (cleans_apply t one)

variable {Tag Item : Type}

inductive Batch (Tag Item : Type) where
  | gatherRes (owner : Nat) (items : List (Tag × Item))
  | getCounts (pid : Nat) (tags : List Tag) (enterSafe : Bool)
  | erase (tags : List Tag) (enterSafe : Bool)

def unpackTags (tags : Codec Tag) : Nat → Serializer → Option (List Tag × Serializer)
  | 0, ser => some ([], ser)
  | n + 1, ser =>
      (tags.serialize tags.default ser).bind fun (tag, ser) =>
        (unpackTags tags n ser).map fun (rest, ser) => (tag :: rest, ser)

/-- A loop with the same variable for the tag in every turn, which is cleaned up in between. -/
def unpackItems (tags : Codec Tag) (items : Codec Item) :
    Nat → Tag → Serializer → Option (List (Tag × Item) × Serializer)
  | 0, _, ser => some ([], ser)
  | n + 1, before, ser =>
      (tags.serialize before ser).bind fun (tag, ser) =>
        (items.serialize items.default ser).bind fun (item, ser) =>
          (tags.serialize tag { Serializer.create false false with mode := .cleanup }).bind
            fun (cleaned, _) =>
              (unpackItems tags items n cleaned ser).map fun (rest, ser) =>
                ((tag, item) :: rest, ser)

def unpackBool (ser : Serializer) : Option (Bool × Serializer) :=
  (integer 1 0 ser).map fun (flag, ser) => (decide (flag ≠ 0), ser)

/-- `recv_msg` for the messages `GATHER_RES`, `GET_COUNTS` and `ERASE`.  A negative `int` ends
the first two loops at once, and the third one never. -/
def recvMsg (tags : Codec Tag) (items : Codec Item) (ser : Serializer) :
    Option (Batch Tag Item × Serializer) :=
  (integer 1 0 ser).bind fun (msg, ser) =>
    match msg with
    | 8 =>
        (integer 4 0 ser).bind fun (owner, ser) =>
          (integer 4 0 ser).bind fun (n, ser) =>
            (unpackItems tags items (if n < 2 ^ 31 then n else 0) tags.default ser).map
              fun (list, ser) => (.gatherRes owner list, ser)
    | 4 =>
        (integer 4 0 ser).bind fun (pid, ser) =>
          (integer 4 0 ser).bind fun (n, ser) =>
            (unpackTags tags (if n < 2 ^ 31 then n else 0) ser).bind fun (list, ser) =>
              (unpackBool ser).map fun (enterSafe, ser) => (.getCounts pid list enterSafe, ser)
    | 3 =>
        (integer 4 0 ser).bind fun (n, ser) =>
          if n < 2 ^ 31 then
            (unpackTags tags n ser).bind fun (list, ser) =>
              (unpackBool ser).map fun (enterSafe, ser) => (.erase list enterSafe, ser)
          else none
    | _ => none

/-- What the messages of a collection have in common: the identifiers of the context and of the
collection, the number of processes, the own one and `CNC_ENABLE_GC`. -/
structure Sender where
  context : Id
  collection : Id
  numProcs : Nat
  myId : Id
  enableGC : Nat

def packBool (flag : Bool) (ser : Serializer) : Option Serializer :=
  (integer 1 flag.toNat ser).map Prod.snd

/-- `get_count_collector`. -/
structure Collector where
  sers : Nat → Option Serializer
  reserved : Nat → Reserved
  counts : Nat → Nat

namespace Collector

def create : Collector :=
  { sers := fun _ => none, reserved := fun _ => { pos := 0, sz := 0 }, counts := fun _ => 0 }

def serializer (s : Sender) (c : Collector) (owner : Nat) : Option (Reserved × Serializer) :=
  match c.sers owner with
  | some ser => some (c.reserved owner, ser)
  | none =>
      (newSerializer s.context s.collection).bind fun ser =>
        (integer 1 4 ser).bind fun (_, ser) =>
          (integer 4 s.myId ser).bind fun (_, ser) => ser.reserve 4

/-- The loop over the missing get-counts.  The number of tags is an `int`. -/
def pack (tags : Codec Tag) (tag : Tag) : Nat → Nat → Serializer → Option (Nat × Serializer)
  | 0, count, ser => some (count, ser)
  | n + 1, count, ser =>
      (tags.serialize tag ser).bind fun (_, ser) =>
        if count + 1 < 2 ^ 31 then pack tags tag n (count + 1) ser else none

/-- `collect`. -/
def collect (tags : Codec Tag) (s : Sender) (owner : Nat) (tag : Tag) (getCount : Nat)
    (c : Collector) : Option Collector :=
  (c.serializer s owner).bind fun (r, ser) =>
    (pack tags tag getCount (c.counts owner) ser).map fun (count, ser) =>
      { sers := Function.update c.sers owner (some ser)
        reserved := Function.update c.reserved owner r
        counts := Function.update c.counts owner count }

/-- The loop of `send_getcounts`: what is sent, and the processes which get no tags. -/
def sendLoop (s : Sender) (enterSafe : Bool) :
    List Nat → Collector → Option (List (Nat × Serializer) × List Nat × Collector)
  | [], c => some ([], [], c)
  | i :: rest, c =>
      match c.sers i with
      | some ser =>
          (packBool enterSafe ser).bind fun ser =>
            (ser.complete (c.reserved i) (toBytes 4 (c.counts i))).bind fun ser =>
              (sendLoop s enterSafe rest
                { c with
                  sers := Function.update c.sers i none
                  counts := Function.update c.counts i 0 }).map fun (sent, others, c) =>
                ((i, ser) :: sent, others, c)
      | none =>
          (sendLoop s enterSafe rest c).map fun (sent, others, c) =>
            (sent, if enterSafe ∧ i ≠ s.myId then i :: others else others, c)

/-- `send_getcounts`: the others get an empty message. -/
def sendGetcounts (s : Sender) (enterSafe : Bool) (c : Collector) :
    Option (List (Nat × Serializer) × Collector) :=
  (sendLoop s enterSafe (List.range s.numProcs) c).bind fun (sent, others, c) =>
    if others = [] then some (sent, c)
    else
      (newSerializer s.context s.collection).bind fun ser =>
        (integer 1 4 ser).bind fun (_, ser) =>
          (integer 4 s.myId ser).bind fun (_, ser) =>
            (integer 4 0 ser).bind fun (_, ser) =>
              (packBool enterSafe ser).map fun ser =>
                (sent ++ others.map fun i => (i, ser), c)

end Collector

/-- `m_erasedSer`, `m_erasedRes` and `m_numErased`. -/
structure Erased where
  ser : Option Serializer
  res : Reserved
  numErased : Nat

namespace Erased

def create : Erased :=
  { ser := none, res := { pos := 0, sz := 0 }, numErased := 0 }

/-- A new message, with the place for the number of tags. -/
def init (s : Sender) : Option (Reserved × Serializer) :=
  (newSerializer s.context s.collection).bind fun ser =>
    (integer 1 3 ser).bind fun (_, ser) => ser.reserve 4

def serializer (s : Sender) (e : Erased) : Option (Reserved × Serializer) :=
  match e.ser with
  | some ser => some (e.res, ser)
  | none => init s

/-- `send_erased`.  The message is sent to all other processes. -/
def sendErased (s : Sender) (enterSafe : Bool) (e : Erased) :
    Option (Option Serializer × Erased) :=
  if enterSafe ∨ s.enableGC / 2 < e.numErased then
    match e.ser, enterSafe with
    | none, false => some (none, e)
    | _, _ =>
        (e.serializer s).bind fun (r, ser) =>
          (packBool enterSafe ser).bind fun ser =>
            (ser.complete r (toBytes 4 e.numErased)).map fun ser =>
              (some ser, { ser := none, res := r, numErased := 0 })
  else some (none, e)

/-- `add_erased` for a tag which others may have consumed. -/
def addErased (tags : Codec Tag) (s : Sender) (tag : Tag) (send : Bool) (e : Erased) :
    Option (Option Serializer × Erased) :=
  (e.serializer s).bind fun (r, ser) =>
    (tags.serialize tag ser).bind fun (_, ser) =>
      if e.numErased + 1 < 2 ^ 31 then
        let e : Erased := { ser := some ser, res := r, numErased := e.numErased + 1 }
        if send then e.sendErased s false else some (none, e)
      else none

end Erased

structure TableEntry (Tag Item : Type) where
  tag : Tag
  item : Option Item
  owned : Bool

/-- `item_gather` for every entry of the table. -/
def gatherLoop (tags : Codec Tag) (items : Codec Item) :
    List (TableEntry Tag Item) → Nat → Serializer → Option (Nat × Serializer)
  | [], n, ser => some (n, ser)
  | entry :: rest, n, ser =>
      match entry.item, entry.owned with
      | some item, true =>
          if n + 1 < 2 ^ 31 then
            (tags.serialize entry.tag ser).bind fun (_, ser) =>
              (items.serialize item ser).bind fun (_, ser) =>
                gatherLoop tags items rest (n + 1) ser
          else none
      | _, _ => gatherLoop tags items rest n ser

/-- `gather(root)`. -/
def gather (tags : Codec Tag) (items : Codec Item) (s : Sender)
    (table : List (TableEntry Tag Item)) : Option Serializer :=
  (newSerializer s.context s.collection).bind fun ser =>
    (integer 1 8 ser).bind fun (_, ser) =>
      (integer 4 s.myId ser).bind fun (_, ser) =>
        (ser.reserve 4).bind fun (r, ser) =>
          (gatherLoop tags items table 0 ser).bind fun (n, ser) => ser.complete r (toBytes 4 n)

/-- The header of a message has been packed, the place behind it is reserved, and the bytes
follow it. -/
structure Opened (ser : Serializer) (header : Bytes) (r : Reserved) (bytes : Bytes) : Prop where
  mode : ser.mode = .pack
  place : r = { pos := maxHeaderSize + header.length, sz := 4 }
  cells : ∃ new, new.length = 4 ∧ ser.buf.Cells (header.map some ++ new ++ bytes.map some)

section Opened

variable {ser : Serializer} {header bytes more : Bytes} {r : Reserved} {α : Type}
  {f : Serializer → Option (α × Serializer)} {x : α}

theorem reserve_opened (isPack : ser.mode = .pack) (isAt : ser.buf.At header header.length)
    (fits : maxHeaderSize + header.length + 4 ≤ 2 ^ 63) :
    ∃ r next, ser.reserve 4 = some (r, next) ∧ Opened next header r [] := by
  obtain ⟨next, new, isNext, length, hasNext⟩ :=
    reserve_cells isAt.toCells (by rw [List.length_map]; exact fits)
  rw [List.length_map] at isNext
  refine ⟨_, _, isNext, isPack, rfl, new, length, ?_⟩
  rw [List.map_nil, List.append_nil]
  exact hasNext

theorem Opened.pack (opened : Opened ser header r bytes) (packs : Packs f x true more)
    (fits : maxHeaderSize + header.length + 4 + bytes.length + more.length ≤ 2 ^ 63) :
    ∃ next, f ser = some (x, next) ∧ Opened next header r (bytes ++ more) := by
  obtain ⟨isPack, place, new, length, hasCells⟩ := opened
  have room : maxHeaderSize + (header.map some ++ new ++ bytes.map some).length + more.length ≤
      2 ^ 63 := by
    rw [List.length_append, List.length_append, List.length_map, List.length_map, length]
    omega
  obtain ⟨next, isNext, hasNext⟩ := packs ser _ isPack hasCells room
  rw [List.append_assoc, ← List.map_append] at hasNext
  exact ⟨_, isNext, isPack, place, new, length, hasNext⟩

theorem Opened.complete (opened : Opened ser header r bytes) {value : Bytes}
    (same : value.length = 4) :
    ∃ next, ser.complete r value = some next ∧
      next.buf.bodyBytes = some (header ++ value ++ bytes) := by
  obtain ⟨-, rfl, new, length, hasCells⟩ := opened
  have filled := @complete_cells ser _ new _ value hasCells (by rw [length, same])
  rw [List.length_map, same] at filled
  obtain ⟨next, isNext, hasNext⟩ := filled
  rw [← List.map_append, ← List.map_append] at hasNext
  exact ⟨_, isNext, hasNext.bodyBytes⟩

end Opened

/-- The body of a message behind the identifiers. -/
def Batch.body (tags : Codec Tag) (items : Codec Item) : Batch Tag Item → Bytes
  | .gatherRes owner list => toBytes 1 8 ++ (toBytes 4 owner ++ (toBytes 4 list.length ++
      list.flatMap fun entry => tags.encode entry.1 ++ items.encode entry.2))
  | .getCounts pid list enterSafe => toBytes 1 4 ++ (toBytes 4 pid ++ (toBytes 4 list.length ++
      (list.flatMap tags.encode ++ toBytes 1 enterSafe.toNat)))
  | .erase list enterSafe => toBytes 1 3 ++ (toBytes 4 list.length ++
      (list.flatMap tags.encode ++ toBytes 1 enterSafe.toNat))

/-- Whatever follows the message, the receiver unpacks the identifiers and the list of the batch,
and no more. -/
def Decoded (tags : Codec Tag) (items : Codec Item) (s : Sender) (packed : Serializer)
    (batch : Batch Tag Item) : Prop :=
  ∃ message, packed.buf.bodyBytes = some message ∧
    ∀ further receiver, receiver.Received (message ++ further) →
      ∃ opened last,
        unpackIds receiver = some ((s.context.val, s.collection.val), opened) ∧
        recvMsg tags items opened = some (batch, last) ∧ last.buf.bodySize = message.length

variable {tags : Codec Tag} {items : Codec Item}

theorem unpacks_unpackTags {list : List Tag} (good : ∀ tag ∈ list, tags.good tag) :
    Unpacks (unpackTags tags list.length) list true (list.flatMap tags.encode) := by
  induction list with
  | nil => exact .pure []
  | cons tag list inductionHypothesis =>
      have first := tags.unpacks tag (good tag (by simp)) tags.default
      have rest := inductionHypothesis fun other isMember => good other (by simp [isMember])
      exact first.bind (rest.map (tag :: ·))

theorem unpacks_unpackItems {list : List (Tag × Item)}
    (good : ∀ entry ∈ list, tags.good entry.1 ∧ items.good entry.2) (before : Tag) :
    Unpacks (unpackItems tags items list.length before) list true
      (list.flatMap fun entry => tags.encode entry.1 ++ items.encode entry.2) := by
  induction list generalizing before with
  | nil => exact .pure []
  | cons entry list inductionHypothesis =>
      obtain ⟨goodTag, goodItem⟩ := good entry (by simp)
      have first := tags.unpacks entry.1 goodTag before
      have second := items.unpacks entry.2 goodItem items.default
      obtain ⟨cleaned, isClean⟩ := tags.cleans entry.1 goodTag
        { Serializer.create false false with mode := .cleanup } rfl
      have rest := inductionHypothesis
        (fun other isMember => good other (by simp [isMember])) cleaned
      have loop : Unpacks (fun ser =>
          (tags.serialize entry.1 { Serializer.create false false with mode := .cleanup }).bind
            fun r => (unpackItems tags items list.length r.1 ser).map fun r =>
              ((entry.1, entry.2) :: r.1, r.2)) (entry :: list) true
          (list.flatMap fun entry => tags.encode entry.1 ++ items.encode entry.2) := by
        refine (rest.map (entry :: ·)).congr fun ser _ => ?_
        rw [isClean]
        rfl
      have later : Unpacks (fun ser => (items.serialize items.default ser).bind fun r =>
          (tags.serialize entry.1 { Serializer.create false false with mode := .cleanup }).bind
            fun q => (unpackItems tags items list.length q.1 r.2).map fun q =>
              ((entry.1, r.1) :: q.1, q.2)) (entry :: list) (true && true)
          (items.encode entry.2 ++
            list.flatMap fun entry => tags.encode entry.1 ++ items.encode entry.2) :=
        second.bind loop
      have both := first.bind (g := fun r => (items.serialize items.default r.2).bind fun r' =>
          (tags.serialize r.1 { Serializer.create false false with mode := .cleanup }).bind
            fun q => (unpackItems tags items list.length q.1 r'.2).map fun q =>
              ((r.1, r'.1) :: q.1, q.2)) later
      rw [← List.append_assoc] at both
      exact both

theorem unpacks_unpackBool (flag : Bool) :
    Unpacks unpackBool flag true (toBytes 1 flag.toNat) := by
  have read := (unpacks_integer 1 0 flag.toNat).map fun n => decide (n ≠ 0)
  have same : decide (flag.toNat % 256 ^ 1 ≠ 0) = flag := by
    cases flag <;> rfl
  rw [same] at read
  exact read

theorem unpacks_int {n : Nat} (small : n < 2 ^ 31) (before : Nat) :
    Unpacks (integer 4 before) n true (toBytes 4 n) := by
  have read := unpacks_integer 4 before n
  rw [Nat.mod_eq_of_lt (by omega)] at read
  exact read

theorem unpacks_id (id : Id) (before : Nat) :
    Unpacks (integer 4 before) id.val true (toBytes 4 id) := by
  have read := unpacks_integer 4 before id
  rw [Nat.mod_eq_of_lt (by omega)] at read
  exact read

theorem unpacks_flagged {list : List Tag} (good : ∀ tag ∈ list, tags.good tag) (enterSafe : Bool)
    (make : List Tag → Bool → Batch Tag Item) :
    Unpacks (fun ser => (unpackTags tags list.length ser).bind fun r =>
        (unpackBool r.2).map fun r' => (make r.1 r'.1, r'.2)) (make list enterSafe) true
      (list.flatMap tags.encode ++ toBytes 1 enterSafe.toNat) := by
  have flag := (unpacks_unpackBool enterSafe).map fun flag => make list flag
  exact (unpacks_unpackTags good).bind (g := fun r =>
    (unpackBool r.2).map fun r' => (make r.1 r'.1, r'.2)) flag

theorem unpacks_getCounts {list : List Tag} (good : ∀ tag ∈ list, tags.good tag)
    (short : list.length < 2 ^ 31) (pid : Id) (enterSafe : Bool) :
    Unpacks (recvMsg tags items) (.getCounts pid list enterSafe) true
      (Batch.body tags items (.getCounts pid list enterSafe)) := by
  have loop : Unpacks (fun ser =>
      (unpackTags tags (if list.length < 2 ^ 31 then list.length else 0) ser).bind fun r =>
        (unpackBool r.2).map fun r' => ((.getCounts pid r.1 r'.1 : Batch Tag Item), r'.2))
      (.getCounts pid list enterSafe) true
      (list.flatMap tags.encode ++ toBytes 1 enterSafe.toNat) := by
    rw [if_pos short]
    exact unpacks_flagged good enterSafe (.getCounts pid)
  have counted : Unpacks (fun ser => (integer 4 0 ser).bind fun r =>
      (unpackTags tags (if r.1 < 2 ^ 31 then r.1 else 0) r.2).bind fun r =>
        (unpackBool r.2).map fun r' => ((.getCounts pid r.1 r'.1 : Batch Tag Item), r'.2))
      (.getCounts pid list enterSafe) (true && true) (toBytes 4 list.length ++
        (list.flatMap tags.encode ++ toBytes 1 enterSafe.toNat)) :=
    (unpacks_int short 0).bind loop
  have sent : Unpacks (fun ser => (integer 4 0 ser).bind fun p => (integer 4 0 p.2).bind fun r =>
      (unpackTags tags (if r.1 < 2 ^ 31 then r.1 else 0) r.2).bind fun r =>
        (unpackBool r.2).map fun r' => ((.getCounts p.1 r.1 r'.1 : Batch Tag Item), r'.2))
      (.getCounts pid list enterSafe) (true && (true && true)) (toBytes 4 pid ++
        (toBytes 4 list.length ++ (list.flatMap tags.encode ++ toBytes 1 enterSafe.toNat))) :=
    (unpacks_id pid 0).bind counted
  exact (unpacks_integer 1 0 4).bind sent

theorem unpacks_erase {list : List Tag} (good : ∀ tag ∈ list, tags.good tag)
    (short : list.length < 2 ^ 31) (enterSafe : Bool) :
    Unpacks (recvMsg tags items) (.erase list enterSafe) true
      (Batch.body tags items (.erase list enterSafe)) := by
  have loop : Unpacks (fun ser =>
      if list.length < 2 ^ 31 then
        (unpackTags tags list.length ser).bind fun r =>
          (unpackBool r.2).map fun r' => ((.erase r.1 r'.1 : Batch Tag Item), r'.2)
      else none) (.erase list enterSafe) true
      (list.flatMap tags.encode ++ toBytes 1 enterSafe.toNat) := by
    simp only [if_pos short]
    exact unpacks_flagged good enterSafe .erase
  have counted : Unpacks (fun ser => (integer 4 0 ser).bind fun r =>
      if r.1 < 2 ^ 31 then
        (unpackTags tags r.1 r.2).bind fun r =>
          (unpackBool r.2).map fun r' => ((.erase r.1 r'.1 : Batch Tag Item), r'.2)
      else none) (.erase list enterSafe) (true && true) (toBytes 4 list.length ++
        (list.flatMap tags.encode ++ toBytes 1 enterSafe.toNat)) :=
    (unpacks_int short 0).bind loop
  exact (unpacks_integer 1 0 3).bind counted

theorem unpacks_gatherRes {list : List (Tag × Item)}
    (good : ∀ entry ∈ list, tags.good entry.1 ∧ items.good entry.2)
    (short : list.length < 2 ^ 31) (owner : Id) :
    Unpacks (recvMsg tags items) (.gatherRes owner list) true
      (Batch.body tags items (.gatherRes owner list)) := by
  have loop : Unpacks (fun ser =>
      (unpackItems tags items (if list.length < 2 ^ 31 then list.length else 0) tags.default
        ser).map fun r => ((.gatherRes owner r.1 : Batch Tag Item), r.2))
      (.gatherRes owner list) true
      (list.flatMap fun entry => tags.encode entry.1 ++ items.encode entry.2) := by
    rw [if_pos short]
    have unpacked := unpacks_unpackItems good tags.default
    exact unpacked.map fun list => (Batch.gatherRes owner list : Batch Tag Item)
  have counted : Unpacks (fun ser => (integer 4 0 ser).bind fun r =>
      (unpackItems tags items (if r.1 < 2 ^ 31 then r.1 else 0) tags.default r.2).map fun r =>
        ((.gatherRes owner r.1 : Batch Tag Item), r.2))
      (.gatherRes owner list) (true && true) (toBytes 4 list.length ++
        list.flatMap fun entry => tags.encode entry.1 ++ items.encode entry.2) :=
    (unpacks_int short 0).bind loop
  have sent : Unpacks (fun ser => (integer 4 0 ser).bind fun p => (integer 4 0 p.2).bind fun r =>
      (unpackItems tags items (if r.1 < 2 ^ 31 then r.1 else 0) tags.default r.2).map fun r =>
        ((.gatherRes p.1 r.1 : Batch Tag Item), r.2))
      (.gatherRes owner list) (true && (true && true)) (toBytes 4 owner ++ (toBytes 4 list.length ++
        list.flatMap fun entry => tags.encode entry.1 ++ items.encode entry.2)) :=
    (unpacks_id owner 0).bind counted
  exact (unpacks_integer 1 0 8).bind sent

theorem decoded_of_body {s : Sender} {packed : Serializer} {batch : Batch Tag Item}
    (body : packed.buf.bodyBytes =
      some (idBytes s.context s.collection ++ batch.body tags items))
    (unpacks : Unpacks (recvMsg tags items) batch true (batch.body tags items)) :
    Decoded tags items s packed batch := by
  refine ⟨_, body, fun further receiver isReceived => ?_⟩
  obtain ⟨opened, isOpened, last, isBatch, consumed⟩ := unpack_message unpacks isReceived
  exact ⟨opened, last, isOpened, isBatch, consumed⟩

/-- There is memory for a message with the given bytes of tags, and their number is an `int`. -/
def Room (count : Nat) (bytes : Bytes) : Prop :=
  count < 2 ^ 31 ∧ bytes.length ≤ 2 ^ 63 - 64

/-- What stands before the number of tags. -/
def Sender.header (s : Sender) (type : Bytes) : Bytes :=
  idBytes s.context s.collection ++ type

theorem packs_int (width n : Nat) (ser : Serializer) {cells : List (Option UInt8)}
    (isPack : ser.mode = .pack) (hasCells : ser.buf.Cells cells)
    (fits : maxHeaderSize + cells.length + width ≤ 2 ^ 63) :
    ∃ next, integer width n ser = some (n, { ser with buf := next }) ∧
      next.Cells (cells ++ (toBytes width n).map some) :=
  packs_integer width n ser cells isPack hasCells (by rwa [length_toBytes])

theorem length_header (s : Sender) (type : Nat) :
    (s.header (toBytes 1 type ++ toBytes 4 s.myId)).length = 13 := by
  rw [Sender.header, List.length_append, length_idBytes, List.length_append, length_toBytes,
    length_toBytes]

theorem new_typed (s : Sender) (type : Nat) :
    ∃ fresh next, newSerializer s.context s.collection = some fresh ∧
      integer 1 type fresh = some (type, next) ∧ next.mode = .pack ∧
      next.buf.At (s.header (toBytes 1 type)) (s.header (toBytes 1 type)).length := by
  obtain ⟨fresh, isFresh, isPack, isAt⟩ := newSerializer_at s.context s.collection
  obtain ⟨next, isNext, hasNext⟩ := packs_int 1 type fresh isPack isAt.toCells (by
    rw [List.length_map, length_idBytes]
    decide)
  rw [← List.map_append] at hasNext
  exact ⟨fresh, _, isFresh, isNext, isPack, hasNext.toAt⟩

theorem typed_own {s : Sender} {type : Nat} {ser : Serializer} (isPack : ser.mode = .pack)
    (isAt : ser.buf.At (s.header (toBytes 1 type)) (s.header (toBytes 1 type)).length) :
    ∃ next, integer 4 s.myId ser = some (s.myId.val, next) ∧ next.mode = .pack ∧
      next.buf.At (s.header (toBytes 1 type ++ toBytes 4 s.myId))
        (s.header (toBytes 1 type ++ toBytes 4 s.myId)).length := by
  obtain ⟨next, isNext, hasNext⟩ := packs_int 4 s.myId ser isPack isAt.toCells (by
    rw [List.length_map, Sender.header, List.length_append, length_idBytes, length_toBytes]
    decide)
  rw [← List.map_append, Sender.header, List.append_assoc] at hasNext
  exact ⟨_, isNext, isPack, hasNext.toAt⟩

theorem packBool_opened {ser : Serializer} {header bytes : Bytes} {r : Reserved} (flag : Bool)
    (opened : Opened ser header r bytes)
    (fits : maxHeaderSize + header.length + 4 + bytes.length + 1 ≤ 2 ^ 63) :
    ∃ next, packBool flag ser = some next ∧
      Opened next header r (bytes ++ toBytes 1 flag.toNat) := by
  obtain ⟨next, isNext, openedNext⟩ := opened.pack (packs_integer 1 flag.toNat)
    (by rwa [length_toBytes])
  exact ⟨next, by rw [packBool, isNext]; rfl, openedNext⟩

def ownedItems (table : List (TableEntry Tag Item)) : List (Tag × Item) :=
  table.filterMap fun entry =>
    if entry.owned then entry.item.map fun item => (entry.tag, item) else none

theorem gatherLoop_opened {header : Bytes} {r : Reserved} (table : List (TableEntry Tag Item))
    (good : ∀ entry ∈ ownedItems table, tags.good entry.1 ∧ items.good entry.2)
    {n : Nat} {ser : Serializer} {bytes : Bytes} (opened : Opened ser header r bytes)
    (count : n + (ownedItems table).length < 2 ^ 31)
    (fits : maxHeaderSize + header.length + 4 + bytes.length +
      ((ownedItems table).flatMap fun entry =>
        tags.encode entry.1 ++ items.encode entry.2).length ≤ 2 ^ 63) :
    ∃ next, gatherLoop tags items table n ser = some (n + (ownedItems table).length, next) ∧
      Opened next header r (bytes ++ (ownedItems table).flatMap fun entry =>
        tags.encode entry.1 ++ items.encode entry.2) := by
  induction table generalizing n ser bytes with
  | nil =>
      refine ⟨ser, rfl, ?_⟩
      rw [ownedItems, List.filterMap_nil, List.flatMap_nil, List.append_nil]
      exact opened
  | cons entry table inductionHypothesis =>
      obtain ⟨tag, item, owned⟩ := entry
      cases item with
      | none =>
          cases owned with
          | false => exact inductionHypothesis good opened count fits
          | true => exact inductionHypothesis good opened count fits
      | some item =>
          cases owned with
          | false => exact inductionHypothesis good opened count fits
          | true =>
              have list : ownedItems (⟨tag, some item, true⟩ :: table) =
                (tag, item) :: ownedItems table := rfl
              rw [list] at good count fits ⊢
              simp only [List.flatMap_cons, List.length_append] at fits
              rw [List.length_cons] at count
              obtain ⟨goodTag, goodItem⟩ := good (tag, item) (by simp)
              obtain ⟨first, isFirst, openedFirst⟩ :=
                opened.pack (tags.packs tag goodTag) (by omega)
              obtain ⟨second, isSecond, openedSecond⟩ :=
                openedFirst.pack (items.packs item goodItem) (by
                  rw [List.length_append]
                  omega)
              obtain ⟨last, isLast, openedLast⟩ := inductionHypothesis
                (fun other isMember => good other (by simp [isMember])) openedSecond
                (n := n + 1) (by omega) (by
                  rw [List.length_append, List.length_append]
                  omega)
              refine ⟨last, ?_, ?_⟩
              · have counted : n + 1 < 2 ^ 31 := by omega
                have next : n + ((tag, item) :: ownedItems table).length =
                    n + 1 + (ownedItems table).length := by
                  rw [List.length_cons]
                  omega
                rw [gatherLoop, next]
                simp only [if_pos counted, isFirst, Option.bind_some, isSecond, isLast]
              · rw [List.flatMap_cons]
                simpa only [List.append_assoc] using openedLast

theorem gather_decoded (s : Sender) (table : List (TableEntry Tag Item))
    (good : ∀ entry ∈ ownedItems table, tags.good entry.1 ∧ items.good entry.2)
    (room : Room (ownedItems table).length ((ownedItems table).flatMap fun entry =>
      tags.encode entry.1 ++ items.encode entry.2)) :
    ∃ packed, gather tags items s table = some packed ∧
      Decoded tags items s packed (.gatherRes s.myId (ownedItems table)) := by
  obtain ⟨count, short⟩ := room
  obtain ⟨fresh, first, isFresh, isFirst, isPack, isAt⟩ := new_typed s 8
  obtain ⟨second, isSecond, isPack', isAt'⟩ := typed_own isPack isAt
  have header := length_header s 8
  obtain ⟨r, third, isThird, opened⟩ := reserve_opened isPack' isAt' (by
    rw [header]
    decide)
  have sixteen : maxHeaderSize = 16 := rfl
  obtain ⟨fourth, isFourth, openedFourth⟩ := gatherLoop_opened table good opened (n := 0)
    (by rwa [Nat.zero_add]) (by
      rw [header, sixteen, List.length_nil]
      omega)
  rw [Nat.zero_add] at isFourth
  obtain ⟨packed, isPacked, body⟩ := openedFourth.complete
    (length_toBytes 4 (ownedItems table).length)
  refine ⟨packed, ?_, decoded_of_body ?_ (unpacks_gatherRes good count s.myId)⟩
  · exact bind_some isFresh (bind_some isFirst (bind_some isSecond (bind_some isThird
      (bind_some isFourth isPacked))))
  · rw [body, Sender.header, Batch.body, List.nil_append]
    simp only [List.append_assoc]

theorem good_of_fewer {pending fewer : List Tag} (isFewer : fewer = [] ∨ fewer = pending)
    (good : ∀ tag ∈ pending, tags.good tag) : ∀ tag ∈ fewer, tags.good tag := by
  rcases isFewer with rfl | rfl
  · simp
  · exact good

theorem room_of_fewer {pending fewer : List Tag} (isFewer : fewer = [] ∨ fewer = pending)
    (room : Room pending.length (pending.flatMap tags.encode)) :
    Room fewer.length (fewer.flatMap tags.encode) := by
  rcases isFewer with rfl | rfl
  · simp [Room]
  · exact room

namespace Collector

variable {s : Sender} {c next : Collector} {i : Nat} {pending : List Tag}

/-- What is behind the type in a message with get-counts. -/
def header (s : Sender) : Bytes :=
  s.header (toBytes 1 4 ++ toBytes 4 s.myId)

/-- The message for a process has the tags which were collected for it. -/
structure Holds (tags : Codec Tag) (s : Sender) (c : Collector) (i : Nat) (pending : List Tag) :
    Prop where
  counts : c.counts i = pending.length
  empty : c.sers i = none → pending = []
  opened : ∀ ser, c.sers i = some ser →
    pending ≠ [] ∧ Opened ser (header s) (c.reserved i) (pending.flatMap tags.encode)

theorem holds_create (tags : Codec Tag) (s : Sender) (i : Nat) : create.Holds tags s i [] :=
  ⟨rfl, fun _ => rfl, fun _ isSome => nomatch isSome⟩

theorem Holds.serializer (holds : c.Holds tags s i pending) :
    ∃ r ser, c.serializer s i = some (r, ser) ∧
      Opened ser (header s) r (pending.flatMap tags.encode) := by
  cases isSer : c.sers i with
  | some ser =>
      refine ⟨_, ser, ?_, (holds.opened ser isSer).2⟩
      rw [Collector.serializer, isSer]
  | none =>
      obtain ⟨fresh, first, isFresh, isFirst, isPack, isAt⟩ := new_typed s 4
      obtain ⟨second, isSecond, isPack', isAt'⟩ := typed_own isPack isAt
      obtain ⟨r, third, isThird, opened⟩ := reserve_opened isPack' isAt' (by
        rw [length_header]
        decide)
      refine ⟨r, third, ?_, ?_⟩
      · rw [Collector.serializer, isSer]
        exact bind_some isFresh (bind_some isFirst (bind_some isSecond isThird))
      · rw [holds.empty isSer]
        exact opened

theorem pack_opened {tag : Tag} (good : tags.good tag) {header : Bytes} {r : Reserved} (n : Nat)
    {count : Nat} {ser : Serializer} {bytes : Bytes} (opened : Opened ser header r bytes)
    (small : count + n < 2 ^ 31)
    (fits : maxHeaderSize + header.length + 4 + bytes.length +
      ((List.replicate n tag).flatMap tags.encode).length ≤ 2 ^ 63) :
    ∃ next, pack tags tag n count ser = some (count + n, next) ∧
      Opened next header r (bytes ++ (List.replicate n tag).flatMap tags.encode) := by
  induction n generalizing count ser bytes with
  | zero =>
      refine ⟨ser, rfl, ?_⟩
      rw [List.replicate_zero, List.flatMap_nil, List.append_nil]
      exact opened
  | succ n inductionHypothesis =>
      rw [List.replicate_succ, List.flatMap_cons] at fits ⊢
      rw [List.length_append] at fits
      obtain ⟨first, isFirst, openedFirst⟩ := opened.pack (tags.packs tag good) (by omega)
      obtain ⟨last, isLast, openedLast⟩ := @inductionHypothesis (count + 1) first _
        openedFirst (by omega) (by
          rw [List.length_append]
          omega)
      rw [List.append_assoc] at openedLast
      refine ⟨last, ?_, openedLast⟩
      rw [pack]
      refine bind_some isFirst ?_
      have counted : count + 1 < 2 ^ 31 := by omega
      rw [show count + (n + 1) = count + 1 + n by omega]
      exact (if_pos counted).trans isLast

theorem Holds.congr (holds : c.Holds tags s i pending) (counts : next.counts i = c.counts i)
    (sers : next.sers i = c.sers i) (reserved : next.reserved i = c.reserved i) :
    next.Holds tags s i pending := by
  refine ⟨counts.trans holds.counts, fun isNone => holds.empty (sers ▸ isNone),
    fun ser isSer => ?_⟩
  rw [reserved]
  exact holds.opened ser (sers ▸ isSer)

theorem Holds.collect {pending : Nat → List Tag} (holds : ∀ i, c.Holds tags s i (pending i))
    {owner getCount : Nat} {tag : Tag} (good : tags.good tag) (positive : 0 < getCount)
    (room : Room (pending owner ++ List.replicate getCount tag).length
      ((pending owner ++ List.replicate getCount tag).flatMap tags.encode)) :
    ∃ next, c.collect tags s owner tag getCount = some next ∧ ∀ i, next.Holds tags s i
      (Function.update pending owner (pending owner ++ List.replicate getCount tag) i) := by
  obtain ⟨small, fits⟩ := room
  rw [List.length_append, List.length_replicate] at small
  rw [List.flatMap_append, List.length_append] at fits
  have sixteen : maxHeaderSize = 16 := rfl
  obtain ⟨r, ser, isSer, opened⟩ := (holds owner).serializer
  obtain ⟨last, isLast, openedLast⟩ := pack_opened good getCount opened
    (by rw [← (holds owner).counts] at small; exact small) (by
      rw [header, length_header]
      omega)
  rw [← List.flatMap_append] at openedLast
  refine ⟨{
    sers := Function.update c.sers owner (some last)
    reserved := Function.update c.reserved owner r
    counts := Function.update c.counts owner (c.counts owner + getCount) },
    bind_some isSer (map_some isLast _), fun i => ?_⟩
  by_cases same : i = owner
  · subst same
    rw [Function.update_self]
    refine ⟨?_, ?_, ?_⟩
    · simp only [Function.update_self]
      rw [List.length_append, List.length_replicate, (holds i).counts]
    · simp only [Function.update_self]
      exact fun isNone => nomatch isNone
    · simp only [Function.update_self]
      intro ser isSome
      cases isSome
      refine ⟨fun isNil => ?_, openedLast⟩
      have length := congrArg List.length isNil
      rw [List.length_append, List.length_replicate, List.length_nil] at length
      omega
  · rw [Function.update_of_ne same]
    exact (holds i).congr (Function.update_of_ne same ..) (Function.update_of_ne same ..)
      (Function.update_of_ne same ..)

def Delivers (tags : Codec Tag) (items : Codec Item) (s : Sender) (sent : Nat × Serializer)
    (expected : Nat × Batch Tag Item) : Prop :=
  sent.1 = expected.1 ∧ Decoded tags items s sent.2 expected.2

theorem Holds.flush (items : Codec Item) (holds : c.Holds tags s i pending) {ser : Serializer}
    (isSer : c.sers i = some ser) (good : ∀ tag ∈ pending, tags.good tag)
    (room : Room pending.length (pending.flatMap tags.encode)) (enterSafe : Bool) :
    ∃ flagged packed, packBool enterSafe ser = some flagged ∧
      flagged.complete (c.reserved i) (toBytes 4 (c.counts i)) = some packed ∧
      Decoded tags items s packed (.getCounts s.myId pending enterSafe) := by
  obtain ⟨small, fits⟩ := room
  have sixteen : maxHeaderSize = 16 := rfl
  obtain ⟨flagged, isFlagged, opened⟩ := packBool_opened enterSafe (holds.opened ser isSer).2 (by
    rw [header, length_header]
    omega)
  obtain ⟨packed, isPacked, body⟩ := opened.complete (length_toBytes 4 (c.counts i))
  refine ⟨flagged, packed, isFlagged, isPacked,
    decoded_of_body ?_ (unpacks_getCounts good small s.myId enterSafe)⟩
  rw [body, header, Sender.header, Batch.body, holds.counts]
  simp only [List.append_assoc]

theorem sendLoop_spec (items : Codec Item) (enterSafe : Bool) {list : List Nat}
    (nodup : list.Nodup) {pending : Nat → List Tag} (holds : ∀ i, c.Holds tags s i (pending i))
    (good : ∀ i, ∀ tag ∈ pending i, tags.good tag)
    (room : ∀ i, Room (pending i).length ((pending i).flatMap tags.encode)) :
    ∃ sent next,
      sendLoop s enterSafe list c = some (sent, list.filter fun i : Nat =>
        decide (enterSafe ∧ i ≠ s.myId) && (pending i).isEmpty, next) ∧
      List.Forall₂ (Delivers tags items s) sent ((list.filter fun i => !(pending i).isEmpty).map
        fun i => (i, .getCounts s.myId (pending i) enterSafe)) ∧
      ∀ i, next.Holds tags s i (if i ∈ list then [] else pending i) := by
  induction list generalizing c pending with
  | nil =>
      refine ⟨[], c, rfl, .nil, fun i => ?_⟩
      rw [if_neg List.not_mem_nil]
      exact holds i
  | cons i rest inductionHypothesis =>
      obtain ⟨notMember, nodupRest⟩ := List.nodup_cons.mp nodup
      cases isSer : c.sers i with
      | none =>
          have nothing : pending i = [] := (holds i).empty isSer
          obtain ⟨sent, next, isSent, delivers, holdsNext⟩ :=
            inductionHypothesis nodupRest holds good room
          refine ⟨sent, next, ?_, ?_, fun j => ?_⟩
          · rw [sendLoop, isSer]
            refine (map_some isSent _).trans ?_
            rw [List.filter_cons, nothing]
            by_cases other : enterSafe ∧ i ≠ s.myId
            · simp [other]
            · simp [other]
          · rw [List.filter_cons, nothing]
            exact delivers
          · by_cases same : j = i
            · subst same
              have holdsSame := holdsNext j
              rw [if_neg notMember, nothing] at holdsSame
              rw [if_pos List.mem_cons_self]
              exact holdsSame
            · simpa only [List.mem_cons, same, false_or] using holdsNext j
      | some ser =>
          obtain ⟨notEmpty, -⟩ := (holds i).opened ser isSer
          obtain ⟨flagged, packed, isFlagged, isPacked, decoded⟩ :=
            (holds i).flush items isSer (good i) (room i) enterSafe
          have holdsReset (j : Nat) : Holds tags s
              { c with
                sers := Function.update c.sers i none
                counts := Function.update c.counts i 0 } j (Function.update pending i [] j) := by
            by_cases same : j = i
            · subst same
              rw [Function.update_self]
              exact ⟨Function.update_self .., fun _ => rfl,
                fun ser isSer => nomatch (Function.update_self j none c.sers).symm.trans isSer⟩
            · rw [Function.update_of_ne same]
              exact (holds j).congr (Function.update_of_ne same ..) (Function.update_of_ne same ..)
                rfl
          have fewer (j : Nat) : Function.update pending i [] j = [] ∨
              Function.update pending i [] j = pending j := by
            by_cases same : j = i
            · exact .inl (by rw [same, Function.update_self])
            · exact .inr (Function.update_of_ne same ..)
          have goodReset (j : Nat) := good_of_fewer (fewer j) (good j)
          have roomReset (j : Nat) := room_of_fewer (fewer j) (room j)
          have elsewhere (j : Nat) (isMember : j ∈ rest) :
              Function.update pending i [] j = pending j :=
            Function.update_of_ne (ne_of_mem_of_not_mem isMember notMember) ..
          obtain ⟨sent, next, isSent, delivers, holdsNext⟩ :=
            inductionHypothesis nodupRest holdsReset goodReset roomReset
          have full : (pending i).isEmpty = false := by simpa using notEmpty
          refine ⟨(i, packed) :: sent, next, ?_, ?_, fun j => ?_⟩
          · rw [sendLoop, isSer]
            have left : (rest.filter fun j : Nat =>
                decide (enterSafe ∧ j ≠ s.myId) && (Function.update pending i [] j).isEmpty) =
                rest.filter fun j : Nat =>
                  decide (enterSafe ∧ j ≠ s.myId) && (pending j).isEmpty :=
              List.filter_congr fun j isMember => by rw [elsewhere j isMember]
            rw [left] at isSent
            rw [List.filter_cons, full, Bool.and_false, if_neg Bool.false_ne_true]
            exact bind_some isFlagged (bind_some isPacked (map_some isSent _))
          · rw [List.filter_cons, full, Bool.not_false, if_pos rfl, List.map_cons]
            refine .cons ⟨rfl, decoded⟩ ?_
            have sameFilter : (rest.filter fun j => !(Function.update pending i [] j).isEmpty) =
                rest.filter fun j => !(pending j).isEmpty :=
              List.filter_congr fun j isMember => by rw [elsewhere j isMember]
            have sameMap : ((rest.filter fun j => !(pending j).isEmpty).map fun j =>
                (j, (.getCounts s.myId (Function.update pending i [] j) enterSafe :
                  Batch Tag Item))) =
                (rest.filter fun j => !(pending j).isEmpty).map fun j =>
                  (j, .getCounts s.myId (pending j) enterSafe) :=
              List.map_congr_left fun j isMember => by
                rw [elsewhere j (List.mem_of_mem_filter isMember)]
            rw [sameFilter, sameMap] at delivers
            exact delivers
          · by_cases same : j = i
            · have holdsSame := holdsNext j
              rw [same, if_neg notMember, Function.update_self] at holdsSame
              rw [same, if_pos List.mem_cons_self]
              exact holdsSame
            · have holdsOther := holdsNext j
              rw [Function.update_of_ne same] at holdsOther
              simpa only [List.mem_cons, same, false_or] using holdsOther

theorem empty_decoded (tags : Codec Tag) (items : Codec Item) (s : Sender) (enterSafe : Bool) :
    ∃ fresh first second third packed, newSerializer s.context s.collection = some fresh ∧
      integer 1 4 fresh = some (4, first) ∧ integer 4 s.myId first = some (s.myId.val, second) ∧
      integer 4 0 second = some (0, third) ∧ packBool enterSafe third = some packed ∧
      Decoded tags items s packed (.getCounts s.myId [] enterSafe) := by
  obtain ⟨fresh, first, isFresh, isFirst, isPack, isAt⟩ := new_typed s 4
  obtain ⟨second, isSecond, isPack', isAt'⟩ := typed_own isPack isAt
  have sixteen : maxHeaderSize = 16 := rfl
  obtain ⟨third, isThird, hasThird⟩ := packs_int 4 0 second isPack' isAt'.toCells (by
    rw [List.length_map, length_header]
    decide)
  obtain ⟨packed, isPacked, hasPacked⟩ :=
    packs_int 1 enterSafe.toNat { second with buf := third } isPack' hasThird (by
      rw [List.length_append, List.length_map, length_header, List.length_map, length_toBytes]
      decide)
  rw [← List.map_append, ← List.map_append] at hasPacked
  refine ⟨fresh, first, second, _, { second with buf := packed }, isFresh, isFirst, isSecond,
    isThird, map_some isPacked _, decoded_of_body ?_ ?_⟩
  rotate_left
  · exact unpacks_getCounts (by simp) (by simp) s.myId enterSafe
  refine hasPacked.bodyBytes.trans ?_
  rw [Sender.header, Batch.body]
  simp only [List.append_assoc, List.flatMap_nil, List.nil_append, List.length_nil]

def expectedSend (s : Sender) (enterSafe : Bool) (pending : Nat → List Tag) :
    List (Nat × Batch Tag Item) :=
  (((List.range s.numProcs).filter fun i => !(pending i).isEmpty).map fun i =>
      (i, .getCounts s.myId (pending i) enterSafe)) ++
    ((List.range s.numProcs).filter fun i : Nat =>
      decide (enterSafe ∧ i ≠ s.myId) && (pending i).isEmpty).map fun i =>
        (i, .getCounts s.myId [] enterSafe)

theorem Holds.send (items : Codec Item) (enterSafe : Bool) {pending : Nat → List Tag}
    (holds : ∀ i, c.Holds tags s i (pending i))
    (good : ∀ i, ∀ tag ∈ pending i, tags.good tag)
    (room : ∀ i, Room (pending i).length ((pending i).flatMap tags.encode)) :
    ∃ sent next, sendGetcounts s enterSafe c = some (sent, next) ∧
      List.Forall₂ (Delivers tags items s) sent (expectedSend s enterSafe pending) ∧
      ∀ i, next.Holds tags s i (if i < s.numProcs then [] else pending i) := by
  obtain ⟨sent, next, isSent, delivers, holdsNext⟩ :=
    sendLoop_spec items enterSafe List.nodup_range holds good room
  simp only [List.mem_range] at holdsNext
  generalize isOthers : ((List.range s.numProcs).filter fun i : Nat =>
    decide (enterSafe ∧ i ≠ s.myId) && (pending i).isEmpty) = others at isSent
  by_cases nobody : others = []
  · refine ⟨sent, next, bind_some isSent (if_pos nobody), ?_, holdsNext⟩
    rw [expectedSend, isOthers, nobody, List.map_nil, List.append_nil]
    exact delivers
  · obtain ⟨fresh, first, second, third, packed, isFresh, isFirst, isSecond, isThird, isPacked,
      decoded⟩ := empty_decoded tags items s enterSafe
    refine ⟨sent ++ others.map fun i => (i, packed), next,
      bind_some isSent ((if_neg nobody).trans (bind_some isFresh (bind_some isFirst
        (bind_some isSecond (bind_some isThird (map_some isPacked _)))))), ?_, holdsNext⟩
    rw [expectedSend, isOthers]
    refine List.rel_append delivers ?_
    rw [List.forall₂_map_left_iff, List.forall₂_map_right_iff, List.forall₂_same]
    exact fun i _ => ⟨rfl, decoded⟩

end Collector

inductive CollectorOp (Tag : Type) where
  | collect (owner : Nat) (tag : Tag) (getCount : Nat)
  | sendGetcounts (enterSafe : Bool)

namespace Collector

def run (tags : Codec Tag) (s : Sender) :
    List (CollectorOp Tag) → Collector → Option (List (Nat × Serializer) × Collector)
  | [], c => some ([], c)
  | .collect owner tag getCount :: ops, c =>
      (c.collect tags s owner tag getCount).bind fun c => run tags s ops c
  | .sendGetcounts enterSafe :: ops, c =>
      (c.sendGetcounts s enterSafe).bind fun (sent, c) =>
        (run tags s ops c).map fun (later, c) => (sent ++ later, c)

/-- What is still to be sent to each process. -/
def after (s : Sender) (pending : Nat → List Tag) : CollectorOp Tag → Nat → List Tag
  | .collect owner tag getCount =>
      Function.update pending owner (pending owner ++ List.replicate getCount tag)
  | .sendGetcounts _ => fun i => if i < s.numProcs then [] else pending i

def expected (s : Sender) : List (CollectorOp Tag) → (Nat → List Tag) → List (Nat × Batch Tag Item)
  | [], _ => []
  | .collect owner tag getCount :: ops, pending =>
      expected s ops (after s pending (.collect owner tag getCount))
  | .sendGetcounts enterSafe :: ops, pending =>
      expectedSend s enterSafe pending ++
        expected s ops (after s pending (.sendGetcounts enterSafe))

def Within (tags : Codec Tag) (s : Sender) : List (CollectorOp Tag) → (Nat → List Tag) → Prop
  | [], _ => True
  | op :: ops, pending =>
      (match op with
        | .collect owner tag getCount => tags.good tag ∧ 0 < getCount ∧
            Room (pending owner ++ List.replicate getCount tag).length
              ((pending owner ++ List.replicate getCount tag).flatMap tags.encode)
        | .sendGetcounts _ => True) ∧
      Within tags s ops (after s pending op)

theorem run_spec (items : Codec Item) {ops : List (CollectorOp Tag)} {pending : Nat → List Tag}
    (holds : ∀ i, c.Holds tags s i (pending i)) (good : ∀ i, ∀ tag ∈ pending i, tags.good tag)
    (room : ∀ i, Room (pending i).length ((pending i).flatMap tags.encode))
    (within : Within tags s ops pending) :
    ∃ sent next, run tags s ops c = some (sent, next) ∧
      List.Forall₂ (Delivers tags items s) sent (expected s ops pending) := by
  induction ops generalizing c pending with
  | nil => exact ⟨[], c, rfl, .nil⟩
  | cons op ops inductionHypothesis =>
      obtain ⟨fits, rest⟩ := within
      cases op with
      | collect owner tag getCount =>
          obtain ⟨goodTag, positive, roomTag⟩ := fits
          obtain ⟨next, isNext, holdsNext⟩ := Holds.collect holds goodTag positive roomTag
          have goodNext (i : Nat) :
              ∀ other ∈ after s pending (.collect owner tag getCount) i, tags.good other := by
            by_cases same : i = owner
            · subst same
              rw [after, Function.update_self]
              intro other isMember
              rcases List.mem_append.mp isMember with old | new
              · exact good i other old
              · rw [List.eq_of_mem_replicate new]
                exact goodTag
            · rw [after, Function.update_of_ne same]
              exact good i
          have roomNext (i : Nat) : Room (after s pending (.collect owner tag getCount) i).length
              ((after s pending (.collect owner tag getCount) i).flatMap tags.encode) := by
            by_cases same : i = owner
            · subst same
              rw [after, Function.update_self]
              exact roomTag
            · rw [after, Function.update_of_ne same]
              exact room i
          obtain ⟨sent, last, isSent, delivers⟩ :=
            inductionHypothesis holdsNext goodNext roomNext rest
          exact ⟨sent, last, bind_some isNext isSent, delivers⟩
      | sendGetcounts enterSafe =>
          obtain ⟨sent, next, isSent, delivers, holdsNext⟩ :=
            Holds.send items enterSafe holds good room
          have fewer (i : Nat) : after s pending (.sendGetcounts enterSafe) i = [] ∨
              after s pending (.sendGetcounts enterSafe) i = pending i := by
            by_cases inside : i < s.numProcs
            · exact .inl (if_pos inside)
            · exact .inr (if_neg inside)
          obtain ⟨later, last, isLater, deliversLater⟩ := inductionHypothesis holdsNext
            (fun i => good_of_fewer (fewer i) (good i)) (fun i => room_of_fewer (fewer i) (room i))
            rest
          exact ⟨sent ++ later, last, bind_some isSent (map_some isLater _),
            List.rel_append delivers deliversLater⟩

end Collector

namespace Erased

variable {s : Sender} {e : Erased} {pending : List Tag}

structure Holds (tags : Codec Tag) (s : Sender) (e : Erased) (pending : List Tag) : Prop where
  numErased : e.numErased = pending.length
  empty : e.ser = none → pending = []
  opened : ∀ ser, e.ser = some ser →
    Opened ser (s.header (toBytes 1 3)) e.res (pending.flatMap tags.encode)

theorem holds_create (tags : Codec Tag) (s : Sender) : create.Holds tags s [] :=
  ⟨rfl, fun _ => rfl, fun _ isSome => nomatch isSome⟩

theorem length_header (s : Sender) : (s.header (toBytes 1 3)).length = 9 := by
  rw [Sender.header, List.length_append, length_idBytes, length_toBytes]

theorem Holds.serializer (holds : e.Holds tags s pending) :
    ∃ r ser, e.serializer s = some (r, ser) ∧
      Opened ser (s.header (toBytes 1 3)) r (pending.flatMap tags.encode) := by
  cases isSer : e.ser with
  | some ser =>
      refine ⟨_, ser, ?_, holds.opened ser isSer⟩
      rw [Erased.serializer, isSer]
  | none =>
      obtain ⟨fresh, first, isFresh, isFirst, isPack, isAt⟩ := new_typed s 3
      obtain ⟨r, second, isSecond, opened⟩ := reserve_opened isPack isAt (by
        rw [length_header]
        decide)
      refine ⟨r, second, ?_, ?_⟩
      · rw [Erased.serializer, isSer]
        exact bind_some isFresh (bind_some isFirst isSecond)
      · rw [holds.empty isSer]
        exact opened

def Outcome (tags : Codec Tag) (items : Codec Item) (s : Sender) (pending : List Tag)
    (sends enterSafe : Bool) (sent : Option Serializer) (next : Erased) : Prop :=
  if sends then
    (∃ packed, sent = some packed ∧ Decoded tags items s packed (.erase pending enterSafe)) ∧
      next.Holds tags s []
  else sent = none ∧ next.Holds tags s pending

theorem Holds.send (items : Codec Item) (holds : e.Holds tags s pending)
    (good : ∀ tag ∈ pending, tags.good tag)
    (room : Room pending.length (pending.flatMap tags.encode)) (enterSafe : Bool) :
    ∃ sent next, e.sendErased s enterSafe = some (sent, next) ∧
      Outcome tags items s pending (decide (enterSafe ∨ s.enableGC / 2 < pending.length))
        enterSafe sent next := by
  by_cases sends : enterSafe ∨ s.enableGC / 2 < pending.length
  · obtain ⟨small, fits⟩ := room
    have sixteen : maxHeaderSize = 16 := rfl
    obtain ⟨r, ser, isSer, opened⟩ := holds.serializer
    obtain ⟨flagged, isFlagged, openedFlagged⟩ := packBool_opened enterSafe opened (by
      rw [length_header]
      omega)
    obtain ⟨packed, isPacked, body⟩ := openedFlagged.complete (length_toBytes 4 e.numErased)
    have decoded : Decoded tags items s packed (.erase pending enterSafe) := by
      refine decoded_of_body ?_ (unpacks_erase good small enterSafe)
      rw [body, Sender.header, Batch.body, holds.numErased]
      simp only [List.append_assoc]
    refine ⟨some packed, { ser := none, res := r, numErased := 0 }, ?_, ?_⟩
    · have goesOn : (e.serializer s).bind (fun (r, ser) =>
          (packBool enterSafe ser).bind fun ser =>
            (ser.complete r (toBytes 4 e.numErased)).map fun ser =>
              (some ser, ({ ser := none, res := r, numErased := 0 } : Erased))) =
          some (some packed, { ser := none, res := r, numErased := 0 }) :=
        bind_some isSer (bind_some isFlagged (map_some isPacked _))
      unfold sendErased
      rw [← holds.numErased] at sends
      rw [if_pos sends]
      cases isOpen : e.ser with
      | some other => exact goesOn
      | none =>
          cases enterSafe with
          | true => exact goesOn
          | false =>
              rw [holds.numErased, holds.empty isOpen] at sends
              simp at sends
    · rw [Outcome, if_pos (decide_eq_true sends)]
      exact ⟨⟨packed, rfl, decoded⟩, rfl, fun _ => rfl, fun _ isSome => nomatch isSome⟩
  · refine ⟨none, e, ?_, ?_⟩
    · unfold sendErased
      rw [holds.numErased, if_neg sends]
    · rw [Outcome, if_neg (by simpa using sends)]
      exact ⟨rfl, holds⟩

theorem Holds.add (items : Codec Item) (holds : e.Holds tags s pending)
    (good : ∀ tag ∈ pending, tags.good tag) {tag : Tag} (goodTag : tags.good tag)
    (room : Room (pending ++ [tag]).length ((pending ++ [tag]).flatMap tags.encode))
    (send : Bool) :
    ∃ sent next, e.addErased tags s tag send = some (sent, next) ∧
      Outcome tags items s (pending ++ [tag])
        (send && decide (s.enableGC / 2 < (pending ++ [tag]).length)) false sent next := by
  have goodAll : ∀ other ∈ pending ++ [tag], tags.good other := by
    intro other isMember
    rcases List.mem_append.mp isMember with old | new
    · exact good other old
    · rw [List.mem_singleton.mp new]
      exact goodTag
  obtain ⟨small, fits⟩ := id room
  have sixteen : maxHeaderSize = 16 := rfl
  rw [List.flatMap_append, List.length_append, List.flatMap_singleton] at fits
  obtain ⟨r, ser, isSer, opened⟩ := holds.serializer
  obtain ⟨packed, isPacked, openedPacked⟩ := opened.pack (tags.packs tag goodTag) (by
    rw [length_header]
    omega)
  have counted : e.numErased + 1 = (pending ++ [tag]).length := by
    rw [holds.numErased, List.length_append, List.length_singleton]
  have holdsNext : Holds tags s { ser := some packed, res := r, numErased := e.numErased + 1 }
      (pending ++ [tag]) := by
    refine ⟨counted, fun isNone => (nomatch isNone), fun other isSome => ?_⟩
    cases isSome
    rw [List.flatMap_append, List.flatMap_singleton]
    exact openedPacked
  have isInt : e.numErased + 1 < 2 ^ 31 := by
    rw [counted]
    exact small
  cases send with
  | false =>
      refine ⟨none, _, bind_some isSer (bind_some isPacked (if_pos isInt)), ?_⟩
      rw [Bool.false_and]
      exact ⟨rfl, holdsNext⟩
  | true =>
      obtain ⟨sent, next, isSent, outcome⟩ := holdsNext.send items goodAll room false
      refine ⟨sent, next, bind_some isSer (bind_some isPacked ((if_pos isInt).trans isSent)), ?_⟩
      simpa using outcome

end Erased

inductive ErasedOp (Tag : Type) where
  | addErased (tag : Tag) (send : Bool)
  | sendErased (enterSafe : Bool)

namespace Erased

variable {s : Sender} {e : Erased} {pending : List Tag}

def perform (tags : Codec Tag) (s : Sender) (e : Erased) :
    ErasedOp Tag → Option (Option Serializer × Erased)
  | .addErased tag send => e.addErased tags s tag send
  | .sendErased enterSafe => e.sendErased s enterSafe

def run (tags : Codec Tag) (s : Sender) :
    List (ErasedOp Tag) → Erased → Option (List Serializer × Erased)
  | [], e => some ([], e)
  | op :: ops, e =>
      (e.perform tags s op).bind fun (sent, e) =>
        (run tags s ops e).map fun (later, e) => (sent.toList ++ later, e)

def listed (pending : List Tag) : ErasedOp Tag → List Tag
  | .addErased tag _ => pending ++ [tag]
  | .sendErased _ => pending

def flag (s : Sender) (pending : List Tag) : ErasedOp Tag → Option Bool
  | .addErased tag send =>
      if send && decide (s.enableGC / 2 < (pending ++ [tag]).length) then some false else none
  | .sendErased enterSafe =>
      if decide (enterSafe ∨ s.enableGC / 2 < pending.length) then some enterSafe else none

def expected (s : Sender) : List (ErasedOp Tag) → List Tag → List (Batch Tag Item)
  | [], _ => []
  | op :: ops, pending =>
      match flag s pending op with
      | some enterSafe => .erase (listed pending op) enterSafe :: expected s ops []
      | none => expected s ops (listed pending op)

/-- Every tag which is added is good, and no message gets too long. -/
def Within (tags : Codec Tag) (s : Sender) : List (ErasedOp Tag) → List Tag → Prop
  | [], _ => True
  | op :: ops, pending =>
      (∀ tag ∈ listed pending op, tags.good tag) ∧
        Room (listed pending op).length ((listed pending op).flatMap tags.encode) ∧
        Within tags s ops (if (flag s pending op).isSome then [] else listed pending op)

theorem Holds.perform (items : Codec Item) (holds : e.Holds tags s pending) (op : ErasedOp Tag)
    (good : ∀ tag ∈ listed pending op, tags.good tag)
    (room : Room (listed pending op).length ((listed pending op).flatMap tags.encode)) :
    ∃ sent next, e.perform tags s op = some (sent, next) ∧
      match flag s pending op with
      | some enterSafe =>
          (∃ packed, sent = some packed ∧
            Decoded tags items s packed (.erase (listed pending op) enterSafe)) ∧
            next.Holds tags s []
      | none => sent = none ∧ next.Holds tags s (listed pending op) := by
  cases op with
  | addErased tag send =>
      have goodOld : ∀ other ∈ pending, tags.good other := fun other isMember =>
        good other (List.mem_append_left _ isMember)
      have goodTag : tags.good tag := good tag (List.mem_append_right _ (by simp))
      obtain ⟨sent, next, isSent, outcome⟩ := holds.add items goodOld goodTag room send
      refine ⟨sent, next, isSent, ?_⟩
      rw [Outcome] at outcome
      rw [flag]
      split at outcome
      · rw [if_pos (by assumption)]
        exact outcome
      · rw [if_neg (by assumption)]
        exact outcome
  | sendErased enterSafe =>
      obtain ⟨sent, next, isSent, outcome⟩ := holds.send items good room enterSafe
      refine ⟨sent, next, isSent, ?_⟩
      rw [Outcome] at outcome
      rw [flag]
      split at outcome
      · rw [if_pos (by assumption)]
        exact outcome
      · rw [if_neg (by assumption)]
        exact outcome

theorem run_spec (items : Codec Item) {ops : List (ErasedOp Tag)}
    (holds : e.Holds tags s pending) (within : Within tags s ops pending) :
    ∃ sent next, run tags s ops e = some (sent, next) ∧
      List.Forall₂ (Decoded tags items s) sent (expected s ops pending) := by
  induction ops generalizing e pending with
  | nil => exact ⟨[], e, rfl, .nil⟩
  | cons op ops inductionHypothesis =>
      obtain ⟨good, room, rest⟩ := within
      obtain ⟨sent, next, isSent, outcome⟩ := holds.perform items op good room
      cases isFlag : flag s pending op with
      | some enterSafe =>
          rw [isFlag] at outcome rest
          obtain ⟨⟨packed, rfl, decoded⟩, holdsNext⟩ := outcome
          obtain ⟨later, last, isLater, decodedLater⟩ := inductionHypothesis holdsNext rest
          refine ⟨packed :: later, last, bind_some isSent (map_some isLater _), ?_⟩
          rw [expected, isFlag]
          exact .cons decoded decodedLater
      | none =>
          rw [isFlag] at outcome rest
          obtain ⟨rfl, holdsNext⟩ := outcome
          obtain ⟨later, last, isLater, decodedLater⟩ := inductionHypothesis holdsNext rest
          refine ⟨later, last, bind_some isSent (map_some isLater _), ?_⟩
          rw [expected, isFlag]
          exact decodedLater

end Erased

def Sender.bodyOf (s : Sender) (pack : Serializer → Option Serializer) : Option Bytes :=
  ((newSerializer s.context s.collection).bind pack).bind fun ser => ser.buf.bodyBytes

theorem bodyOf_deferred (s : Sender) {before after : List Obj} {size : Nat}
    (obj : Fin size → UInt8)
    (fits : maxHeaderSize + 8 + (before.flatMap Obj.encode).length + size +
      (after.flatMap Obj.encode).length ≤ 2 ^ 63) :
    s.bodyOf (packDeferred before obj after) = s.bodyOf (packDirect before obj after) ∧
      (before.all Obj.packable → after.all Obj.packable →
        s.bodyOf (packDirect before obj after) = some (idBytes s.context s.collection ++
          before.flatMap Obj.encode ++ List.ofFn obj ++ after.flatMap Obj.encode)) := by
  obtain ⟨fresh, isFresh, isPack, isAt⟩ := newSerializer_at s.context s.collection
  rw [← length_idBytes s.context s.collection] at fits
  unfold Sender.bodyOf
  rw [isFresh, Option.bind_some, Option.bind_some]
  refine ⟨deferred_eq_direct obj isPack isAt fits, fun packedBefore packedAfter => ?_⟩
  obtain ⟨direct, isDirect, body⟩ := packDirect_body obj isPack isAt packedBefore packedAfter fits
  exact bind_some isDirect body

/-- An object whose place was reserved is packed as directly, and therefore every batched message
is decoded to its list in order, with the flag behind it. -/
theorem deferred_packing (s : Sender) (tags : Codec Tag) (items : Codec Item) :
    (∀ (before after : List Obj) (size : Nat) (obj : Fin size → UInt8),
      maxHeaderSize + 8 + (before.flatMap Obj.encode).length + size +
          (after.flatMap Obj.encode).length ≤ 2 ^ 63 →
        s.bodyOf (packDeferred before obj after) = s.bodyOf (packDirect before obj after) ∧
          (before.all Obj.packable → after.all Obj.packable →
            s.bodyOf (packDirect before obj after) = some (idBytes s.context s.collection ++
              before.flatMap Obj.encode ++ List.ofFn obj ++ after.flatMap Obj.encode))) ∧
    (∀ ops, Collector.Within tags s ops (fun _ => []) →
      ∃ sent last, Collector.run tags s ops .create = some (sent, last) ∧
        List.Forall₂ (Collector.Delivers tags items s) sent
          (Collector.expected s ops fun _ => [])) ∧
    (∀ ops, Erased.Within tags s ops [] →
      ∃ sent last, Erased.run tags s ops .create = some (sent, last) ∧
        List.Forall₂ (Decoded tags items s) sent (Erased.expected s ops [])) ∧
    ∀ table : List (TableEntry Tag Item),
      (∀ entry ∈ ownedItems table, tags.good entry.1 ∧ items.good entry.2) →
      Room (ownedItems table).length
        ((ownedItems table).flatMap fun entry => tags.encode entry.1 ++ items.encode entry.2) →
      ∃ packed, gather tags items s table = some packed ∧
        Decoded tags items s packed (.gatherRes s.myId (ownedItems table)) := by
  refine ⟨fun before after size obj fits => bodyOf_deferred s obj fits, fun ops within => ?_,
    fun ops within => ?_, gather_decoded s⟩
  · exact Collector.run_spec items (Collector.holds_create tags s) (by simp) (by simp [Room]) within
  · exact Erased.run_spec items (Erased.holds_create tags s) within

/-- Tags and items of one byte, and the first of three processes. -/
def oneByte : Codec (Fin 1 → UInt8) :=
  Ty.codec (.bits 1 Nat.one_pos)

def firstOfThree : Sender :=
  { context := 1, collection := 2, numProcs := 3, myId := 0, enableGC := 1 }

theorem oneByte_good (obj : Fin 1 → UInt8) : oneByte.good obj :=
  ⟨rfl, rfl, rfl⟩

theorem oneByte_length (list : List (Fin 1 → UInt8)) :
    (list.flatMap oneByte.encode).length = list.length := by
  exact (length_flatMap_ofFn list).trans (Nat.mul_one _)

theorem deferred_packing_oneByte :
    (firstOfThree.bodyOf (packDeferred [] (fun _ : Fin 4 => 7) []) =
      firstOfThree.bodyOf (packDirect [] (fun _ : Fin 4 => 7) [])) ∧
    (∃ sent last, Collector.run oneByte firstOfThree
        [.collect 1 (fun _ => 5) 2, .sendGetcounts true] .create = some (sent, last) ∧
      List.Forall₂ (Collector.Delivers oneByte oneByte firstOfThree) sent
        (Collector.expected firstOfThree [.collect 1 (fun _ => 5) 2, .sendGetcounts true]
          fun _ => [])) ∧
    (∃ sent last, Erased.run oneByte firstOfThree
        [.addErased (fun _ => 5) false, .addErased (fun _ => 6) true] .create = some (sent, last) ∧
      List.Forall₂ (Decoded oneByte oneByte firstOfThree) sent
        (Erased.expected firstOfThree
          [.addErased (fun _ => 5) false, .addErased (fun _ => 6) true] [])) ∧
    ∃ packed, gather oneByte oneByte firstOfThree
        [⟨fun _ => 1, some fun _ => 2, true⟩, ⟨fun _ => 3, none, true⟩] = some packed ∧
      Decoded oneByte oneByte firstOfThree packed (.gatherRes firstOfThree.myId
        (ownedItems [⟨fun _ => 1, some fun _ => 2, true⟩, ⟨fun _ => 3, none, true⟩])) := by
  obtain ⟨direct, collected, erased, gathered⟩ := deferred_packing firstOfThree oneByte oneByte
  refine ⟨(direct [] [] 4 (fun _ => 7) ?_).1, collected _ ?_, erased _ ?_, gathered _ ?_ ?_⟩
  · simp [maxHeaderSize, crcSize]
  · refine ⟨⟨oneByte_good _, by decide, ?_⟩, trivial, trivial⟩
    rw [Room, oneByte_length]
    simp
  · refine ⟨fun tag _ => oneByte_good tag, ?_, fun tag _ => oneByte_good tag, ?_, trivial⟩
    · rw [Room, oneByte_length]
      simp [Erased.listed]
    · rw [Room, oneByte_length]
      simp [Erased.listed, Erased.flag]
  · exact fun entry _ => ⟨oneByte_good _, oneByte_good _⟩
  · simp [Room, ownedItems, oneByte, Ty.codec, Ty.encode]

end CnC.Serialize
