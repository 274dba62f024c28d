import CnC.Reduce.Finalize
import CnC.Reduce.Local

/-!
# Flushing the reductions on one process

Without a distributor, `flush` puts the combined values of all reductions in a loop.
-/

namespace CnC.Reduce.Local

open Transition

variable {w : Nat} {Id Thread α : Type}

/-- All reductions of a graph, and the entries of `m_reductions`.  `loop` are the reductions which
`flush` has still to visit, and `out` are the values which it has put.  No operation reads
`flushed`. -/
structure Graph (w : Nat) (Id Thread α : Type) where
  red : Id → State w Thread α
  keys : List Id
  loop : Option (List Id)
  flushed : Bool
  out : List (Id × α)

inductive GraphAction (Id Thread α : Type) where
  | reduce (id : Id) (action : Action Thread α)
  | flush
  | visit (id : Id)
  | leave

namespace Graph

def start (w : Nat) (Id Thread α : Type) : Graph w Id Thread α where
  red _ := Local.start w Thread α
  keys := []
  loop := none
  flushed := false
  out := []

/-- The values which have been put for a reduction, by its callbacks and by `flush`. -/
def puts [DecidableEq Id] (s : Graph w Id Thread α) (id : Id) : List α :=
  (s.red id).out ++ Flush.valuesOf id s.out

/-- An item or a count has been put for the reduction. -/
def IsPut (s : Graph w Id Thread α) (id : Id) : Prop :=
  (s.red id).items ≠ [] ∨ (s.red id).countPut = true

/-- `flush` is called once, when no callback runs, and nothing is put after that.  A count is put
once. -/
def Calls (s : Graph w Id Thread α) : GraphAction Id Thread α → Prop
  | .reduce _ (.putItem _ _) => s.flushed = false
  | .reduce id (.putCount _) => s.flushed = false ∧ (s.red id).countPut = false
  | .flush => s.flushed = false ∧ ∀ id, (s.red id).Idle
  | _ => True

/-- No reduction has been finished when `flush` is called, and no values of no slot are combined,
unless a new slot holds the identity. -/
def Unfinished [One α] [Inhabited α] (s : Graph w Id Thread α) : GraphAction Id Thread α → Prop
  | .flush => ∀ id, (s.red id).done = false
  | .visit id => (s.red id).slots ≠ [] ∨ (default : α) = 1
  | _ => True

def Flushes [One α] [Inhabited α] (s : Graph w Id Thread α) (action : GraphAction Id Thread α) :
    Prop :=
  s.Calls action ∧ s.Unfinished action

section Decidable

variable [Fintype Id] [Fintype Thread] [One α] [Inhabited α] [DecidableEq α]

instance (s : Graph w Id Thread α) : DecidablePred s.Calls
  | .reduce _ (.putItem _ _) => inferInstanceAs (Decidable (s.flushed = false))
  | .reduce id (.putCount _) =>
      inferInstanceAs (Decidable (s.flushed = false ∧ (s.red id).countPut = false))
  | .flush =>
      inferInstanceAs (Decidable (s.flushed = false ∧ ∀ id thread, (s.red id).pcs thread = .idle))
  | .reduce _ (.loadReduced _) | .reduce _ (.loadN _) | .reduce _ (.run _) | .visit _ | .leave =>
      .isTrue trivial

instance (s : Graph w Id Thread α) : DecidablePred s.Flushes
  | .reduce id action => inferInstanceAs (Decidable (s.Calls (.reduce id action) ∧ True))
  | .flush => inferInstanceAs (Decidable (s.Calls .flush ∧ ∀ id, (s.red id).done = false))
  | .visit id => inferInstanceAs (Decidable (s.Calls (.visit id) ∧ (_ ∨ (default : α) = 1)))
  | .leave => inferInstanceAs (Decidable (s.Calls .leave ∧ True))

end Decidable

section Operations

variable [DecidableEq Id]

/-- The callbacks begin with `get`. -/
def getFor (s : Graph w Id Thread α) (id : Id) : Action Thread α → List Id
  | .putItem _ _ | .putCount _ => s.keys.insert id
  | .loadReduced _ | .loadN _ | .run _ => s.keys

variable [DecidableEq Thread] [Mul α] [One α] [Inhabited α]

def step (cnt : Id → BitVec w) (s : Graph w Id Thread α) :
    GraphAction Id Thread α → Option (Graph w Id Thread α)
  | .reduce id action =>
      (Local.step (cnt id) (s.red id) action).map fun red =>
        { s with red := Function.update s.red id red, keys := s.getFor id action }
  | .flush =>
      match s.loop with
      | none => some { s with loop := some s.keys, flushed := true }
      | some _ => none
  | .visit id =>
      match s.loop with
      | some rest =>
          if id ∈ rest then
            some { s with
              loop := some (rest.erase id)
              out := s.out ++ [(id, (s.red id).slots.combine)] }
          else none
      | none => none
  | .leave =>
      match s.loop with
      | some [] => some { s with loop := none }
      | _ => none

def system (cnt : Id → BitVec w) : System (Graph w Id Thread α) (GraphAction Id Thread α) where
  Initial s := s = start w Id Thread α
  step := step cnt

end Operations

end Graph

section Kept

variable [DecidableEq Thread] {c : Nat} {flag : Bool} {s next : State w Thread α}
  {thread : Thread}

/-- A value is put only when the reduction is finished. -/
def State.Unput (s : State w Thread α) : Prop :=
  s.out = [] ∨ s.done = true ∨ ∃ thread, s.pcs thread = .putDone

theorem State.Unput.keep (unput : s.Unput) {pc : Pc w α} (pcs : next.pcs = (s.goto thread pc).pcs)
    (out : next.out = s.out) (done : next.done = s.done) (notPut : s.pcs thread ≠ .putDone) :
    next.Unput := by
  rcases unput with none | isDone | ⟨other, isPc⟩
  · exact .inl (out.trans none)
  · exact .inr (.inl (done.trans isDone))
  · refine .inr (.inr ⟨other, ?_⟩)
    rw [pcs, pcs_goto, if_neg]
    · exact isPc
    · rintro rfl
      exact notPut isPc

variable [CommMonoid α] [Inhabited α]

theorem State.Unput.preserved (unput : s.Unput) (moved : Next c flag s thread next) :
    next.Unput := by
  cases moved with
  | putOut isPc => exact .inr (.inr ⟨thread, (pcs_goto ..).trans (if_pos rfl)⟩)
  | putDone => exact .inr (.inl rfl)
  | store isStore =>
      refine unput.keep rfl rfl rfl ?_
      rcases isStore with isPc | isPc <;> rw [isPc] <;> nofun
  | plain isPlain =>
      refine unput.keep rfl rfl rfl fun isPc => ?_
      rw [isPc] at isPlain
      cases isPlain
  | putItem _ isPc | putCount isPc | addLocal isPc | addStore isPc | itemCount isPc | putLock isPc
  | putUnlock isPc => exact unput.keep rfl rfl rfl (by rw [isPc]; nofun)

variable [Fintype Thread]

/-- The slots hold the items, whatever the count is. -/
structure Kept (s : State w Thread α) : Prop where
  values : Values s
  some_ : ∀ thread val, s.pcs thread = .addLocal val → s.items ≠ []
  unput : s.Unput

omit [DecidableEq Thread] [Inhabited α] in
theorem kept_start : Kept (start w Thread α) :=
  ⟨values_start, nofun, .inl rfl⟩

omit [Inhabited α] in
theorem Kept.items_ne_nil (kept : Kept s) {pc : Pc w α} (pcs : next.pcs = (s.goto thread pc).pcs)
    (items : next.items = s.items) (notAdd : pc.adding = 0) (other : Thread) (val : α)
    (isPc : next.pcs other = .addLocal val) : next.items ≠ [] := by
  rw [pcs, pcs_goto] at isPc
  rw [items]
  split at isPc
  · rw [isPc] at notAdd
    exact absurd notAdd one_ne_zero
  · exact kept.some_ other val isPc

theorem Kept.preserved (kept : Kept s) (moved : Next c flag s thread next) : Kept next := by
  refine ⟨kept.values.preserved (kept.some_ thread) moved, ?_, kept.unput.preserved moved⟩
  cases moved with
  | putItem val isPc => exact fun _ _ _ => by simp
  | putCount => exact kept.items_ne_nil rfl rfl (Pc.measures_ofCount _).2.1
  | addLocal isPc => exact fun _ _ _ => kept.some_ thread _ isPc
  | plain isPlain => exact kept.items_ne_nil rfl rfl isPlain.measures.2.2.2
  | addStore | itemCount | store | putLock | putOut | putDone | putUnlock =>
      exact kept.items_ne_nil rfl rfl rfl

omit [DecidableEq Thread] [Inhabited α] in
theorem Kept.out_eq_nil (kept : Kept s) (idle : s.Idle) (unfinished : s.done = false) :
    s.out = [] := by
  rcases kept.unput with none | isDone | ⟨thread, isPc⟩
  · exact none
  · exact absurd (isDone.symm.trans unfinished) (by decide)
  · rw [idle thread] at isPc
    cases isPc

omit [DecidableEq Thread] [Inhabited α] in
theorem Kept.total_eq (kept : Kept s) (idle : s.Idle) :
    s.slots.total (fun _ => true) = s.items.prod := by
  have total := kept.values.total
  simpa [idle _, Pc.fresh, Pc.pending] using total

omit [Fintype Thread] in
theorem exists_next {cnt : BitVec w} {action : Action Thread α}
    (once : ∀ thread, action = .putCount thread → s.countPut = false)
    (stepped : step cnt s action = some next) : ∃ c, Next c false s action.thread next := by
  -- a number of items which wraps to the count, and is large enough for one more
  have isCount : count w (cnt.toNat + 2 ^ w * (s.items.length + 1)) false = cnt := by
    refine BitVec.eq_of_toNat_eq ?_
    rw [count, if_neg Bool.false_ne_true, BitVec.toNat_ofNat, Nat.add_mul_mod_self_left,
      Nat.mod_eq_of_lt cnt.isLt]
  have more : s.items.length < cnt.toNat + 2 ^ w * (s.items.length + 1) := by
    have := Nat.le_mul_of_pos_left (s.items.length + 1) (Nat.two_pow_pos w)
    omega
  refine ⟨_, next_of_step ?_ (isCount ▸ stepped)⟩
  cases action with
  | putItem => exact more
  | putCount thread => exact ⟨once thread rfl, fun isFlag => absurd isFlag Bool.false_ne_true⟩
  | loadReduced | loadN | run => trivial

end Kept

namespace Graph

variable [DecidableEq Id] [DecidableEq Thread] [Fintype Thread] [CommMonoid α] [Inhabited α]
  {cnt : Id → BitVec w} {s next : Graph w Id Thread α} {action : GraphAction Id Thread α}

structure Inv (s : Graph w Id Thread α) : Prop where
  nodup : s.keys.Nodup
  untouched : ∀ id, id ∉ s.keys → s.red id = Local.start w Thread α
  kept : ∀ id, Kept (s.red id)
  before : s.flushed = false → s.loop = none ∧ s.out = []
  settled : s.flushed = true → ∀ id, (s.red id).Idle ∧ (s.red id).out = []
  listed : s.flushed = true → Flush.Listed s.keys (fun id => (s.red id).items.prod)
    (s.loop.getD []) s.out

omit [DecidableEq Thread] [Inhabited α] in
theorem inv_start : Inv (start w Id Thread α) :=
  ⟨List.nodup_nil, fun _ _ => rfl, fun _ => kept_start, fun _ => ⟨rfl, rfl⟩, nofun, nofun⟩

namespace Inv

variable (inv : Inv s)

include inv

theorem unflushed {id : Id} {action : Action Thread α} {red : State w Thread α}
    (calls : s.Calls (.reduce id action))
    (stepped : Local.step (cnt id) (s.red id) action = some red) : s.flushed = false := by
  cases isFlushed : s.flushed with
  | false => rfl
  | true =>
      have idle := (inv.settled isFlushed id).1
      cases action with
      | putItem => exact isFlushed.symm.trans calls
      | putCount => exact isFlushed.symm.trans calls.1
      | loadReduced thread | loadN thread | run thread =>
          simp [Local.step, advance, idle thread] at stepped

theorem reduce {id : Id} {action : Action Thread α} {red : State w Thread α}
    (calls : s.Calls (.reduce id action))
    (stepped : Local.step (cnt id) (s.red id) action = some red) :
    Inv { s with red := Function.update s.red id red, keys := s.getFor id action } := by
  have unflushed := inv.unflushed calls stepped
  obtain ⟨c, moved⟩ := exists_next (fun thread isPut => by
    subst isPut
    exact calls.2) stepped
  refine ⟨?_, fun other notKey => ?_, fun other => ?_, inv.before, fun flushed => ?_,
    fun flushed => ?_⟩
  · cases action with
    | putItem | putCount => exact inv.nodup.insert
    | loadReduced | loadN | run => exact inv.nodup
  · change Function.update s.red id red other = _
    have notOld : other ∉ s.keys := fun isOld => notKey <| by
      cases action with
      | putItem | putCount => exact List.mem_insert_of_mem isOld
      | loadReduced | loadN | run => exact isOld
    have untouched := inv.untouched other notOld
    by_cases same : other = id
    · subst same
      cases action with
      | putItem | putCount => exact absurd List.mem_insert_self notKey
      | loadReduced | loadN | run =>
          rw [untouched] at stepped
          simp [Local.step, advance, Local.start] at stepped
    · rwa [Function.update_of_ne same]
  · change Kept (Function.update s.red id red other)
    by_cases same : other = id
    · subst same
      rw [Function.update_self]
      exact (inv.kept other).preserved moved
    · rw [Function.update_of_ne same]
      exact inv.kept other
  · exact absurd (flushed.symm.trans unflushed) (by decide)
  · exact absurd (flushed.symm.trans unflushed) (by decide)

omit [DecidableEq Thread] in
theorem flush (calls : s.Calls .flush) (unfinished : s.Unfinished .flush) :
    Inv { s with loop := some s.keys, flushed := true } := by
  refine ⟨inv.nodup, inv.untouched, inv.kept, nofun, fun _ id => ⟨calls.2 id, ?_⟩, fun _ => ?_⟩
  · exact (inv.kept id).out_eq_nil (calls.2 id) (unfinished id)
  · change Flush.Listed s.keys _ s.keys s.out
    rw [(inv.before calls.1).2]
    exact Flush.listed_start inv.nodup _

omit [DecidableEq Thread] in
theorem visit {id : Id} {rest : List Id} (isLoop : s.loop = some rest) (isRest : id ∈ rest)
    (filled : (s.red id).slots ≠ [] ∨ (default : α) = 1) :
    Inv { s with
      loop := some (rest.erase id)
      out := s.out ++ [(id, (s.red id).slots.combine)] } := by
  refine ⟨inv.nodup, inv.untouched, inv.kept, fun unflushed => ?_, inv.settled, fun flushed => ?_⟩
  · rw [(inv.before unflushed).1] at isLoop
    cases isLoop
  · have isValue : (s.red id).slots.combine = (s.red id).items.prod :=
      (Combinable.combine_eq_of_filled filled).trans
        ((inv.kept id).total_eq (inv.settled flushed id).1)
    have listed := inv.listed flushed
    rw [isLoop] at listed
    rw [isValue]
    exact listed.visit isRest

theorem step (calls : s.Calls action) (unfinished : s.Unfinished action)
    (stepped : Graph.step cnt s action = some next) : Inv next := by
  cases action with
  | reduce id action =>
      obtain ⟨red, isRed, rfl⟩ := Option.map_eq_some_iff.mp stepped
      exact inv.reduce calls isRed
  | flush =>
      simp only [Graph.step] at stepped
      split at stepped
      · cases stepped
        exact inv.flush calls unfinished
      · cases stepped
  | visit id =>
      simp only [Graph.step] at stepped
      split at stepped
      · rename_i rest isLoop
        obtain ⟨isRest, isNext⟩ := Option.ite_none_right_eq_some.mp stepped
        cases isNext
        exact inv.visit isLoop isRest unfinished
      · cases stepped
  | leave =>
      simp only [Graph.step] at stepped
      split at stepped
      · rename_i isLoop
        cases stepped
        refine ⟨inv.nodup, inv.untouched, inv.kept,
          fun unflushed => ⟨rfl, (inv.before unflushed).2⟩, inv.settled, fun flushed => ?_⟩
        have listed := inv.listed flushed
        rwa [isLoop] at listed
      · cases stepped

end Inv

theorem inv_of_reached (reached : Reached (system cnt) Flushes s) : Inv s := by
  refine reached.invariant Inv ?_ ?_
  · rintro state rfl
    exact inv_start
  · intro state action next _ inv allowed stepped
    exact inv.step allowed.1 allowed.2 stepped

theorem puts_of_flushed (reached : Reached (system cnt) Flushes s) (flushed : s.flushed = true)
    (ended : s.loop = none) {id : Id} (isPut : s.IsPut id) :
    s.puts id = [(s.red id).items.prod] := by
  have inv := inv_of_reached reached
  have isKey : id ∈ s.keys := by
    by_contra notKey
    rcases isPut with some_ | isPut
    · exact some_ (congrArg State.items (inv.untouched id notKey))
    · rw [inv.untouched id notKey] at isPut
      cases isPut
  have listed := inv.listed flushed
  rw [ended] at listed
  rw [puts, (inv.settled flushed id).2, listed.values, if_pos ⟨isKey, List.not_mem_nil⟩]
  rfl

end Graph

end CnC.Reduce.Local
