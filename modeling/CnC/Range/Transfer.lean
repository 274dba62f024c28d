import CnC.Range.Partitioner
import CnC.Serialize.RoundTrip

/-!
# Ranges in messages

A range may be executed by another process.  Its message has the start, the end and the step
of the range, and its receiver unpacks these into a range which was default-constructed.
-/

namespace CnC.Range

open Serialize

/-- The members of a `strided_range`, whoever has set them. -/
@[ext]
structure RangeObject where
  start : Int
  last : Int
  step : Int
  size : Int
  deriving DecidableEq

namespace RangeObject

/-- The loop of `init_size`, which need not end if the step is not positive. -/
def initSize (step last : Int) : Nat → Int → Option Nat
  | 0, _ => none
  | fuel + 1, v =>
      if v < last then (initSize step last fuel (v + step)).map (· + 1) else some 0

def make (fuel : Nat) (start last step : Int) : Option RangeObject :=
  (initSize step last fuel start).map fun (n : Nat) => ⟨start, last, step, n⟩

def single (value : Int) : RangeObject :=
  ⟨value, value + 1, 1, 1⟩

def default : RangeObject :=
  ⟨0, 0, 0, 0⟩

def climb (step m : Int) : Nat → Int → Option Int
  | 0, _ => none
  | fuel + 1, tmp => if tmp < m then climb step m fuel (tmp + step) else some tmp

def split (fuel : Nat) (r : RangeObject) : Option (RangeObject × RangeObject) :=
  (climb r.step (r.start + (r.last - r.start).tdiv 2) fuel (r.start + r.step)).bind fun m =>
    (make fuel m r.last r.step).bind fun new =>
      (make fuel r.start m r.step).map fun left => (left, new)

/-- The ranges of a program, which all come from a constructor. -/
inductive Constructed : RangeObject → Prop
  | make {fuel start last step r} : RangeObject.make fuel start last step = some r → Constructed r
  | single (value) : Constructed (.single value)
  | default : Constructed .default
  | left {fuel r left right} : Constructed r → r.split fuel = some (left, right) → Constructed left
  | right {fuel r left right} : Constructed r → r.split fuel = some (left, right) →
      Constructed right

def isEmpty (r : RangeObject) : Bool :=
  r.size ≤ 0

def isDivisible (r : RangeObject) : Bool :=
  r.start + r.step < r.last

/-- `const_iterator::operator++`. -/
def next (r : RangeObject) (val : Int) : Int :=
  if val + r.step > r.last then r.last else val + r.step

/-- The value of an iterator after the given number of increments, if these do not reach
`end()`. -/
def visit (r : RangeObject) : Nat → Int → Option Int
  | 0, val => if val = r.last then none else some val
  | k + 1, val => if val = r.last then none else r.visit k (r.next val)

/-- The elements from `begin()` on.  There may be one for every number. -/
def element (r : RangeObject) (k : Nat) : Option Int :=
  r.visit k r.start

/-- The entries which `range_step::prepare` allocates. -/
def statuses (r : RangeObject) : Nat :=
  r.size.toNat

def interval (r : RangeObject) : Int × Int × Int :=
  (r.start, r.last, r.step)

end RangeObject

namespace Partitioner

def isDivisibleObject (p : Partitioner) (r : RangeObject) (grain : Int) : Bool :=
  (decide (p.grainSize < 0) || decide (r.size > grain)) && r.isDivisible

/-- `divide_and_originate` for a range which has any size. -/
def divideObject (p : Partitioner) (fuel : Nat) (r : RangeObject) :
    Option (Partitioner × RangeObject × Option RangeObject × Bool) :=
  let (grain, p) := p.grain r.size.toNat
  if p.isDivisibleObject r grain then
    (r.split fuel).map fun (r, new) => (p, r, some new, p.isDivisibleObject r grain)
  else some (p, r, none, p.isDivisibleObject r grain)

def divideIntervals (p : Partitioner) (fuel : Nat) (r : RangeObject) :
    Option (Partitioner × (Int × Int × Int) × Option (Int × Int × Int) × Bool) :=
  (p.divideObject fuel r).map fun (p, r, new, more) =>
    (p, r.interval, new.map RangeObject.interval, more)

end Partitioner

/-- An `Index` of the given width, in two's complement. -/
def serializeIndex (width : Nat) (v : Int) (ser : Serializer) : Option (Int × Serializer) :=
  (integer width (v % 256 ^ width).toNat ser).map fun (n, ser) =>
    ((n : Int).bmod (256 ^ width), ser)

namespace RangeObject

/-- `serialize`. -/
def serialize (width : Nat) : Traversal RangeObject := fun r ser =>
  (serializeIndex width r.start ser).bind fun (start, ser) =>
    (serializeIndex width r.last ser).bind fun (last, ser) =>
      (serializeIndex width r.step ser).map fun (step, ser) => ({ r with start, last, step }, ser)

/-- `operator&` for a range. -/
def amp (width : Nat) : Traversal RangeObject :=
  Serialize.amp (explicitly (serialize width))

/-- `compute_on_range` makes the message. -/
def computeOnRange (width : Nat) (context distributable : Id) (r : RangeObject) :
    Option Serializer :=
  (newSerializer context distributable).bind fun ser =>
    (integer 1 1 ser).bind fun (_, ser) => (r.amp width ser).map Prod.snd

/-- `recv_msg`, up to the range for which it creates an instance. -/
def recvMsg (width : Nat) (ser : Serializer) : Option RangeObject :=
  (unpackIds ser).bind fun (_, ser) =>
    (integer 1 0 ser).bind fun (msg, ser) =>
      if msg = 1 then (RangeObject.default.amp width ser).map Prod.fst else none

/-- The members are values of the type `Index`. -/
structure Representable (width : Nat) (r : RangeObject) : Prop where
  positive : 0 < width
  start : -(256 ^ width / 2) ≤ r.start ∧ r.start < 256 ^ width / 2
  last : -(256 ^ width / 2) ≤ r.last ∧ r.last < 256 ^ width / 2
  step : -(256 ^ width / 2) ≤ r.step ∧ r.step < 256 ^ width / 2
  /-- Three values of the type fit into a message. -/
  fits : maxHeaderSize + 8 + 1 + 3 * width ≤ 2 ^ 63

structure ExecutedLike (received r : RangeObject) : Prop where
  size : received.size = r.size
  isEmpty : received.isEmpty = r.isEmpty
  element : ∀ k, received.element k = r.element k
  statuses : ∀ k, k < received.statuses ↔ (received.element k).isSome
  division : ∀ (p : Partitioner) fuel, p.divideIntervals fuel received = p.divideIntervals fuel r

def Transfers (width : Nat) (r : RangeObject) : Prop :=
  ∀ context distributable : Id, ∃ packed message,
    r.computeOnRange width context distributable = some packed ∧
    packed.buf.bodyBytes = some message ∧
    ∀ receiver : Serializer, receiver.Received message →
      ∃ received, recvMsg width receiver = some received ∧ received.ExecutedLike r

end RangeObject

variable {width : Nat} {r : RangeObject} {v : Int}

/-- The bytes of an `Index`. -/
def indexBytes (width : Nat) (v : Int) : Bytes :=
  toBytes width (v % 256 ^ width).toNat

theorem bmod_index (positive : 0 < width) (above : -(256 ^ width / 2) ≤ v)
    (below : v < 256 ^ width / 2) :
    (((v % 256 ^ width).toNat : Nat) : Int).bmod (256 ^ width) = v := by
  have nonneg : 0 ≤ v % (256 : Int) ^ width := Int.emod_nonneg v (by positivity)
  have even : (2 : Int) ∣ 256 ^ width := dvd_pow (by decide) (by omega)
  have modulus : ((256 ^ width : Nat) : Int) = 256 ^ width := by push_cast; rfl
  rw [Int.toNat_of_nonneg nonneg, ← modulus, Int.emod_bmod]
  refine Int.bmod_eq_of_le ?_ ?_
  · rw [modulus]
    exact above
  · rw [modulus]
    omega

theorem packs_serializeIndex (positive : 0 < width)
    (inside : -(256 ^ width / 2) ≤ v ∧ v < 256 ^ width / 2) :
    Packs (serializeIndex width v) v true (indexBytes width v) := by
  have packs := (packs_integer width (v % 256 ^ width).toNat).map
    fun n => (n : Int).bmod (256 ^ width)
  rw [bmod_index positive inside.1 inside.2] at packs
  exact packs

theorem unpacks_serializeIndex (positive : 0 < width)
    (inside : -(256 ^ width / 2) ≤ v ∧ v < 256 ^ width / 2) (before : Int) :
    Unpacks (serializeIndex width before) v true (indexBytes width v) := by
  have unpacks := (unpacks_integer width (before % 256 ^ width).toNat (v % 256 ^ width).toNat).map
    fun n => (n : Int).bmod (256 ^ width)
  have small : (v % 256 ^ width).toNat < 256 ^ width := by
    have below : v % (256 : Int) ^ width < 256 ^ width := Int.emod_lt_of_pos v (by positivity)
    zify
    omega
  rw [Nat.mod_eq_of_lt small, bmod_index positive inside.1 inside.2] at unpacks
  exact unpacks

namespace RangeObject

def encode (width : Nat) (r : RangeObject) : Bytes :=
  indexBytes width r.start ++ (indexBytes width r.last ++ indexBytes width r.step)

theorem length_encode (width : Nat) (r : RangeObject) : (r.encode width).length = 3 * width := by
  simp only [encode, indexBytes, List.length_append, length_toBytes]
  omega

theorem packs_amp (fits : r.Representable width) :
    Packs (r.amp width) r true (r.encode width) := by
  have start := packs_serializeIndex fits.positive fits.start
  have last := packs_serializeIndex fits.positive fits.last
  have step := packs_serializeIndex fits.positive fits.step
  have one : Packs (serialize width r) r true (r.encode width) :=
    start.bind (last.bind (step.map fun step => { r with step }))
  have all : Packs (each (serialize width) [r]) [r] true (r.encode width) := by
    have both := one.bind (g := fun x => (each (serialize width) [] x.2).map
      fun y => (x.1 :: y.1, y.2)) ((Packs.pure []).map (r :: ·))
    rwa [Bool.and_true, List.append_nil] at both
  exact all.explicitly.amp

theorem unpacks_amp (fits : r.Representable width) (before : RangeObject) :
    Unpacks (before.amp width) { r with size := before.size } true (r.encode width) := by
  have start := unpacks_serializeIndex fits.positive fits.start before.start
  have last := unpacks_serializeIndex fits.positive fits.last before.last
  have step := unpacks_serializeIndex fits.positive fits.step before.step
  have one : Unpacks (serialize width before) { r with size := before.size } true
      (r.encode width) :=
    start.bind (last.bind (step.map fun step =>
      { before with start := r.start, last := r.last, step }))
  have all : Unpacks (each (serialize width) [before]) [{ r with size := before.size }] true
      (r.encode width) := by
    have both := one.bind (g := fun x => (each (serialize width) [] x.2).map
      fun y => (x.1 :: y.1, y.2)) ((Unpacks.pure []).map ({ r with size := before.size } :: ·))
    rwa [Bool.and_true, List.append_nil] at both
  exact all.explicitly.amp

def messageBytes (width : Nat) (context distributable : Id) (r : RangeObject) : Bytes :=
  idBytes context distributable ++ (toBytes 1 1 ++ r.encode width)

theorem computeOnRange_eq (fits : r.Representable width) (context distributable : Id) :
    ∃ packed, r.computeOnRange width context distributable = some packed ∧
      packed.buf.At (r.messageBytes width context distributable)
        (r.messageBytes width context distributable).length := by
  obtain ⟨fresh, isFresh, isPack, isAt⟩ := newSerializer_at context distributable
  have both : Packs (fun ser => (integer 1 1 ser).bind fun x => (r.amp width x.2)) r
      (true && true) (toBytes 1 1 ++ r.encode width) := (packs_integer 1 1).bind (packs_amp fits)
  have room : maxHeaderSize + ((idBytes context distributable).map some).length +
      (toBytes 1 1 ++ r.encode width).length ≤ 2 ^ 63 := by
    have enough := fits.fits
    rw [List.length_map, length_idBytes, List.length_append, length_toBytes, length_encode]
    omega
  obtain ⟨next, isNext, hasNext⟩ := both fresh _ isPack isAt.toCells room
  refine ⟨{ fresh with buf := next }, ?_, ?_⟩
  · rw [computeOnRange, isFresh, Option.bind_some]
    have packed := congrArg (Option.map Prod.snd) isNext
    rw [Option.map_bind] at packed
    exact packed
  · rw [← List.map_append] at hasNext
    exact hasNext.toAt

theorem recvMsg_eq (fits : r.Representable width) {context distributable : Id}
    {receiver : Serializer}
    (isReceived : receiver.Received (r.messageBytes width context distributable)) :
    recvMsg width receiver = some { r with size := 0 } := by
  have range : Unpacks (fun ser => if 1 = 1 then default.amp width ser else none)
      { r with size := 0 } true (r.encode width) :=
    (unpacks_amp fits default).congr fun ser _ => if_pos rfl
  have kind : Unpacks (fun ser => (integer 1 0 ser).bind fun x =>
      if x.1 = 1 then default.amp width x.2 else none) { r with size := 0 } (true && true)
      (toBytes 1 1 ++ r.encode width) := (unpacks_integer 1 0 1).bind range
  have whole : Unpacks (fun ser => (unpackIds ser).bind fun x => (integer 1 0 x.2).bind fun y =>
      if y.1 = 1 then default.amp width y.2 else none) { r with size := 0 }
      (true && (true && true)) (r.messageBytes width context distributable) :=
    (unpacks_unpackIds context distributable).bind kind
  obtain ⟨isUnpack, isAt⟩ := isReceived
  obtain ⟨next, isNext, -⟩ := whole receiver _ 0 isUnpack isAt (List.prefix_refl _)
  have received := congrArg (Option.map Prod.fst) isNext
  simp only [Option.map_bind, Option.map_some, Function.comp_def, apply_ite (Option.map Prod.fst),
    Option.map_none] at received
  exact received

theorem transfers_iff_executedLike (fits : r.Representable width) :
    r.Transfers width ↔ ExecutedLike { r with size := 0 } r := by
  constructor
  · intro transfers
    obtain ⟨packed, message, isPacked, isMessage, received⟩ := transfers 0 0
    obtain ⟨other, isOther, isAt⟩ := computeOnRange_eq fits 0 0
    cases isOther.symm.trans isPacked
    cases isAt.bodyBytes.symm.trans isMessage
    have isReceived : Serializer.Received
        { packed with buf := packed.buf.restart, mode := .unpack }
        (r.messageBytes width 0 0) := ⟨rfl, isAt.restart⟩
    obtain ⟨result, isResult, like⟩ := received _ isReceived
    cases (recvMsg_eq fits isReceived).symm.trans isResult
    exact like
  · intro like context distributable
    obtain ⟨packed, isPacked, isAt⟩ := computeOnRange_eq fits context distributable
    exact ⟨packed, _, isPacked, isAt.bodyBytes, fun receiver isReceived =>
      ⟨_, recvMsg_eq fits isReceived, like⟩⟩

theorem initSize_of_le {step last v : Int} (above : last ≤ v) (fuel : Nat) :
    initSize step last (fuel + 1) v = some 0 := by
  rw [initSize, if_neg (by omega)]

/-- A constructor leaves a range with the size which `init_size` counts. -/
def Sized (r : RangeObject) : Prop :=
  ∃ fuel n, initSize r.step r.last fuel r.start = some n ∧ r.size = n

theorem sized_of_make {fuel : Nat} {start last step : Int}
    (isMade : make fuel start last step = some r) : r.Sized := by
  obtain ⟨n, isSize, rfl⟩ := Option.map_eq_some_iff.mp isMade
  exact ⟨fuel, n, isSize, rfl⟩

theorem sized_of_split {fuel : Nat} {left right : RangeObject}
    (isSplit : r.split fuel = some (left, right)) : left.Sized ∧ right.Sized := by
  obtain ⟨m, -, isSplit⟩ := Option.bind_eq_some_iff.mp isSplit
  obtain ⟨new, isNew, isSplit⟩ := Option.bind_eq_some_iff.mp isSplit
  obtain ⟨old, isOld, same⟩ := Option.map_eq_some_iff.mp isSplit
  cases same
  exact ⟨sized_of_make isOld, sized_of_make isNew⟩

theorem Constructed.sized (constructed : Constructed r) : r.Sized := by
  induction constructed with
  | make isMade => exact sized_of_make isMade
  | single value =>
      refine ⟨2, 1, ?_, rfl⟩
      change initSize 1 (value + 1) 2 value = some 1
      rw [initSize, if_pos (Int.lt_succ value), initSize_of_le le_rfl]
      rfl
  | default => exact ⟨1, 0, rfl, rfl⟩
  | left _ isSplit _ => exact (sized_of_split isSplit).1
  | right _ isSplit _ => exact (sized_of_split isSplit).2

theorem Sized.size_eq_zero_iff (sized : r.Sized) : r.size = 0 ↔ r.last ≤ r.start := by
  obtain ⟨fuel, n, isSize, same⟩ := sized
  cases fuel with
  | zero => exact nomatch isSize
  | succ fuel =>
      rw [initSize] at isSize
      by_cases inside : r.start < r.last
      · rw [if_pos inside] at isSize
        obtain ⟨m, -, rfl⟩ := Option.map_eq_some_iff.mp isSize
        omega
      · rw [if_neg inside] at isSize
        cases isSize
        omega

theorem element_zero_isSome (r : RangeObject) : (r.element 0).isSome ↔ r.start ≠ r.last := by
  rw [element, visit]
  by_cases same : r.start = r.last <;> simp [same]

theorem executedLike_iff (sized : r.Sized) :
    ExecutedLike { r with size := 0 } r ↔ r.start = r.last := by
  constructor
  · intro like
    have nothing : ¬ (({ r with size := 0 } : RangeObject).element 0).isSome := by
      rw [← like.statuses 0]
      exact Nat.not_lt_zero 0
    by_contra different
    exact nothing ((element_zero_isSome _).mpr different)
  · intro same
    have isSize : r.size = 0 := sized.size_eq_zero_iff.mpr same.ge
    have isReceived : { r with size := 0 } = r := by rw [← isSize]
    rw [isReceived]
    refine ⟨rfl, rfl, fun _ => rfl, fun k => ?_, fun _ _ => rfl⟩
    have noEntry : ¬ k < r.statuses := by simp [statuses, isSize]
    have noElement : r.element k = none := by
      cases k <;> simp [element, visit, same]
    rw [noElement]
    exact iff_of_false noEntry Bool.false_ne_true

/-- A range is executed like the one which was sent if and only if it ends where it starts. -/
theorem range_transfers_iff (width : Nat) (r : RangeObject) (constructed : Constructed r)
    (fits : r.Representable width) : r.Transfers width ↔ r.start = r.last :=
  (transfers_iff_executedLike fits).trans (executedLike_iff constructed.sized)

theorem make_zero_ten : make 11 0 10 1 = some ⟨0, 10, 1, 10⟩ := by
  decide

/-- The range from zero to zero arrives, and the range from zero to ten does not. -/
theorem range_transfers_empty :
    RangeObject.Transfers 4 ⟨0, 0, 1, 0⟩ ∧ ¬ RangeObject.Transfers 4 ⟨0, 10, 1, 10⟩ := by
  constructor
  · refine (range_transfers_iff 4 ⟨0, 0, 1, 0⟩ (@Constructed.make 1 0 0 1 _ rfl) ?_).mpr rfl
    constructor <;> decide
  · intro transfers
    have fits : Representable 4 ⟨0, 10, 1, 10⟩ := by
      constructor <;> decide
    have same := (range_transfers_iff 4 ⟨0, 10, 1, 10⟩ (.make make_zero_ten) fits).mp transfers
    exact absurd same (by decide)

/-- Ten elements are sent, and a range of size zero arrives. -/
theorem range_transfer_fails : ∃ r : RangeObject, r = ⟨0, 10, 1, 10⟩ ∧ Constructed r ∧
    r.Representable 4 ∧ ¬ r.Transfers 4 := by
  have fits : Representable 4 ⟨0, 10, 1, 10⟩ := by
    constructor <;> decide
  refine ⟨_, rfl, .make make_zero_ten, fits, fun transfers => ?_⟩
  have like := (transfers_iff_executedLike fits).mp transfers
  exact absurd like.size (by decide)

end RangeObject

namespace StridedRange

def toObject (r : StridedRange) : RangeObject :=
  ⟨r.start, r.last, r.step, r.size⟩

variable {r : StridedRange} {p : Partitioner}

theorem initSize_eq {step : Int} (stepPos : 0 < step) (last : Int) {fuel : Nat} {v : Int}
    (enough : (last - v).toNat < fuel) :
    RangeObject.initSize step last fuel v = some (initSize stepPos v last) := by
  induction fuel generalizing v with
  | zero => omega
  | succ fuel inductionHypothesis =>
      rw [RangeObject.initSize, initSize]
      by_cases inside : v < last
      · rw [if_pos inside, if_pos inside, inductionHypothesis (by omega)]
        rfl
      · rw [if_neg inside, if_neg inside]

theorem climb_eq {step : Int} (stepPos : 0 < step) (m : Int) {fuel : Nat} {tmp : Int}
    (enough : (m - tmp).toNat < fuel) :
    RangeObject.climb step m fuel tmp = some (climb stepPos tmp m) := by
  induction fuel generalizing tmp with
  | zero => omega
  | succ fuel inductionHypothesis =>
      rw [RangeObject.climb, climb]
      by_cases below : tmp < m
      · rw [if_pos below, if_pos below, inductionHypothesis (by omega)]
      · rw [if_neg below, if_neg below]

theorem make_eq {start last step : Int} (stepPos : 0 < step) {fuel : Nat}
    (enough : (last - start).toNat < fuel) :
    RangeObject.make fuel start last step = some (make start last step stepPos).toObject := by
  rw [RangeObject.make, initSize_eq stepPos last enough]
  rfl

theorem constructed_toObject (r : StridedRange) : RangeObject.Constructed r.toObject := by
  have isMade := @make_eq r.start r.last r.step r.stepPos _ (Nat.lt_succ_self _)
  have same : (make r.start r.last r.step r.stepPos).toObject = r.toObject := by
    simp only [toObject, make, r.sized]
  rw [same] at isMade
  exact .make isMade

theorem split_toObject (r : StridedRange) : ∃ bound, ∀ fuel, bound ≤ fuel →
    r.toObject.split fuel = some (r.split.1.toObject, r.split.2.toObject) := by
  refine ⟨(r.start + (r.last - r.start).tdiv 2 - (r.start + r.step)).toNat +
    (r.last - r.splitPoint).toNat + (r.splitPoint - r.start).toNat + 1, fun fuel enough => ?_⟩
  have isPoint : RangeObject.climb r.step (r.start + (r.last - r.start).tdiv 2) fuel
      (r.start + r.step) = some r.splitPoint := climb_eq r.stepPos _ (by omega)
  have isRight := @make_eq r.splitPoint r.last r.step r.stepPos fuel (by omega)
  have isLeft := @make_eq r.start r.splitPoint r.step r.stepPos fuel (by omega)
  simp only [RangeObject.split, toObject, isPoint, Option.bind_some] at isLeft isRight ⊢
  rw [isRight, isLeft]
  rfl

theorem isDivisibleObject_toObject (p : Partitioner) (r : StridedRange) (grain : Int) :
    p.isDivisibleObject r.toObject grain = p.isDivisible r grain :=
  rfl

/-- A range which was not sent is divided as it is in one process. -/
theorem divideObject_toObject (p : Partitioner) (r : StridedRange) :
    ∃ bound, ∀ fuel, bound ≤ fuel → p.divideObject fuel r.toObject =
      some ((p.divideAndOriginate r).1, (p.divideAndOriginate r).2.1.toObject,
        (p.divideAndOriginate r).2.2.1.map toObject, (p.divideAndOriginate r).2.2.2) := by
  obtain ⟨bound, isSplit⟩ := r.split_toObject
  refine ⟨bound, fun fuel enough => ?_⟩
  have size : r.toObject.size.toNat = r.size := Int.toNat_natCast r.size
  cases divisible : (p.grain r.size).2.isDivisible r (p.grain r.size).1 with
  | true =>
      simp only [Partitioner.divideObject, size, isDivisibleObject_toObject, divisible, if_true,
        isSplit fuel enough, Partitioner.divide_of_divisible divisible]
      rfl
  | false =>
      simp only [Partitioner.divideObject, size, isDivisibleObject_toObject, divisible,
        Partitioner.divide_of_not divisible]
      rfl

theorem visit_eq (r : StridedRange) (size : Int) (k : Nat) (val : Int) :
    ({ r.toObject with size } : RangeObject).visit k val = (r.iterate val)[k]? := by
  induction k generalizing val with
  | zero =>
      rw [RangeObject.visit, iterate]
      change (if val = r.last then _ else _) = _
      split <;> rfl
  | succ k inductionHypothesis =>
      rw [RangeObject.visit, iterate]
      change (if val = r.last then none
        else ({ r.toObject with size } : RangeObject).visit k (r.next val)) = _
      rw [inductionHypothesis]
      split <;> rfl

/-- The receiver finds all elements. -/
theorem element_received (r : StridedRange) (k : Nat) :
    ({ r.toObject with size := 0 } : RangeObject).element k = r.elements[k]? :=
  r.visit_eq 0 k r.start

end StridedRange

namespace Partitioner

variable {p : Partitioner}

/-- The range which arrives is not divided unless it is divided fully. -/
theorem divideObject_received (notFull : 0 ≤ p.grainSize) (fuel : Nat) (r : RangeObject) :
    p.divideObject fuel { r with size := 0 } =
      some ((p.grain 0).2, { r with size := 0 }, none, false) := by
  have positive : 0 ≤ (p.grain 0).1 := by
    rw [grain]
    by_cases fixed : p.grainSize ≠ 0
    · rwa [if_pos fixed]
    · rw [if_neg fixed]
      by_cases unset : p.cached ≤ 0 <;> simp [unset]
      omega
  have same := p.grainSize_grain 0
  have indivisible : (p.grain 0).2.isDivisibleObject { r with size := 0 } (p.grain 0).1 = false := by
    rw [isDivisibleObject, same]
    simp [not_lt.mpr notFull, not_lt.mpr positive]
  simp only [divideObject, Int.toNat_zero, indivisible]
  rfl

end Partitioner

end CnC.Range
