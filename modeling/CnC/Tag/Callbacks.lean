import CnC.Tag.Insertion

/-!
# Callbacks of tag collections

`on_put` is documented to call a callback when a tag was put successfully, and
not again for a second put of the tag.  The test for it looks at the bits which
the insertion found, and the insertion for a TAG message asks for one bit only.
So the callbacks are called again on every process to which a step instance is
passed on.  They are also called by every put which reads the bits before the
first one has written them.
-/

namespace CnC.Tag

open Network Transition

universe u

variable {n k m : Nat} {Tag : Type u}

def calls [DecidableEq Tag] (s : State n k m Tag) (callback : Fin m) (tag : Tag) : Nat :=
  s.onPuts.countP fun entry => entry.2.1 = callback ∧ entry.2.2 = tag

def PutsAt (pid : Fin n) (tag : Tag) : Move n k Tag → Prop
  | .put other same => same = tag → other = pid
  | _ => True

/-- The step instances for the tag are not passed on: when a put creates one,
`compute_on` names no other process. -/
def StaysHere [DecidableEq Tag] (tuner : Tuner n k Tag) (tag : Tag) : Move n k Tag → Prop
  | .visit pid call next =>
      call.tag = tag → ∀ coll ∈ call.rest.head?, call.creates coll = true →
        (createStepInstance tuner pid coll tag (call.mask = userMask) next).2 = []
  | _ => True

/-- No put reads the bits of the tag while they are unset and another insertion is going to set
them. -/
def ReadsAlone [DecidableEq Tag] (tag : Tag) (s : Interleaved n k m Tag) : Move n k Tag → Prop
  | .put pid same =>
      same = tag → (s.state.proc pid).table.bits tag = 0 →
        ∀ insertion ∈ s.inserting pid, insertion.tag ≠ tag
  | _ => True

instance [DecidableEq Tag] (pid : Fin n) (tag : Tag) (action : Move n k Tag) :
    Decidable (PutsAt pid tag action) := by
  unfold PutsAt
  split <;> infer_instance

instance [DecidableEq Tag] (tuner : Tuner n k Tag) (tag : Tag) (action : Move n k Tag) :
    Decidable (StaysHere tuner tag action) := by
  unfold StaysHere
  split <;> infer_instance

instance [DecidableEq Tag] (tag : Tag) (s : Interleaved n k m Tag) (action : Move n k Tag) :
    Decidable (ReadsAlone tag s action) := by
  unfold ReadsAlone
  split <;> infer_instance

section Invariant

variable [DecidableEq Tag] {tuner : Tuner n k Tag} {pid : Fin n} {tag : Tag}
  {s : Interleaved n k m Tag}

def PutCall.Fires (tag : Tag) (call : PutCall k Tag) : Prop :=
  call.tag = tag ∧ call.found = 0

instance (tag : Tag) (call : PutCall k Tag) : Decidable (call.Fires tag) :=
  inferInstanceAs (Decidable (_ ∧ _))

def Process.firing (process : Process k Tag) (tag : Tag) : Nat :=
  process.calls.countP fun call => call.Fires tag

def entered (insertions : List (Insertion Tag)) (tag : Tag) :
    Multiset (BitVec 32 × BitVec 32) :=
  ((insertions.filter fun insertion => insertion.tag = tag).map fun insertion =>
    (insertion.mask, insertion.found) : List (BitVec 32 × BitVec 32))

/-- The tag is known on one process only, and every put but the first one finds
it there. -/
structure Single (pid : Fin n) (tag : Tag) (callback : Fin m) (s : Interleaved n k m Tag) :
    Prop where
  unsent : ∀ i j, ∀ message ∈ s.state.chan i j, message.tag ≠ tag
  elsewhere : ∀ other, other ≠ pid → (∀ call ∈ (s.state.proc other).calls, call.tag ≠ tag) ∧
    entered (s.inserting other) tag = 0
  masks : ∀ asked ∈ entered (s.inserting pid) tag,
    asked.1 = userMask ∧ ∃ putter, (putter, tag) ∈ s.state.puts
  bits : (s.state.proc pid).table.bits tag = userMask ∧
      (∃ putter, (putter, tag) ∈ s.state.puts) ∨
    (s.state.proc pid).table.bits tag = 0 ∧
      ((∃ putter, (putter, tag) ∈ s.state.puts) → entered (s.inserting pid) tag ≠ 0)
  once : calls s.state callback tag + (s.state.proc pid).firing tag +
      (entered (s.inserting pid) tag).countP (fun asked => asked.2 = 0) =
    if ∃ putter, (putter, tag) ∈ s.state.puts then 1 else 0

theorem single_start (callback : Fin m) :
    Single pid tag callback ⟨start n k m Tag, fun _ => []⟩ where
  unsent _ _ _ membership := by cases membership
  elsewhere _ _ := ⟨by simp [start], rfl⟩
  masks _ membership := by cases membership
  bits := .inr ⟨rfl, by simp [start]⟩
  once := by simp [start, calls, Process.firing, entered]

theorem entered_cons (insertion : Insertion Tag) (rest : List (Insertion Tag)) (tag : Tag) :
    entered (insertion :: rest) tag =
      if insertion.tag = tag then (insertion.mask, insertion.found) ::ₘ entered rest tag
      else entered rest tag := by
  by_cases same : insertion.tag = tag <;> simp [entered, same]

theorem entered_erase {insertion : Insertion Tag} {insertions : List (Insertion Tag)}
    (member : insertion ∈ insertions) (tag : Tag) :
    entered insertions tag = if insertion.tag = tag then
        (insertion.mask, insertion.found) ::ₘ entered (insertions.erase insertion) tag
      else entered (insertions.erase insertion) tag := by
  rw [← entered_cons]
  exact Multiset.coe_eq_coe.mpr (((List.perm_cons_erase member).filter _).map _)

theorem mem_entered {insertion : Insertion Tag} {insertions : List (Insertion Tag)}
    (member : insertion ∈ insertions) :
    (insertion.mask, insertion.found) ∈ entered insertions insertion.tag := by
  rw [entered_erase member, if_pos rfl]
  exact Multiset.mem_cons_self _ _

theorem Process.mem_store_calls {process : Process k Tag} {insertion : Insertion Tag}
    {bits : BitVec 32} {call : PutCall k Tag}
    (membership : call ∈ (process.store insertion bits).calls) :
    call.tag = insertion.tag ∨ call ∈ process.calls := by
  unfold Process.store at membership
  dsimp only at membership
  split at membership
  · rcases List.mem_cons.mp membership with rfl | old
    · exact .inl rfl
    · exact .inr old
  · exact .inr membership

theorem Process.firing_store_other {process : Process k Tag} {insertion : Insertion Tag}
    (bits : BitVec 32) (different : insertion.tag ≠ tag) :
    (process.store insertion bits).firing tag = process.firing tag := by
  unfold Process.store
  dsimp only
  split <;> simp [Process.firing, PutCall.Fires, different]

theorem and_userMask (bits : BitVec 32) : bits &&& userMask = bits := by
  apply BitVec.eq_of_getLsbD_eq
  intro i small
  rw [BitVec.getLsbD_and, getLsbD_userMask small, Bool.and_true]

theorem or_userMask (bits : BitVec 32) : bits ||| userMask = userMask := by
  apply BitVec.eq_of_getLsbD_eq
  intro i small
  rw [BitVec.getLsbD_or, getLsbD_userMask small, Bool.or_true]

theorem Process.firing_store_user (process : Process k Tag) {insertion : Insertion Tag}
    (bits : BitVec 32) (isUser : insertion.mask = userMask) :
    (process.store insertion bits).firing insertion.tag =
      process.firing insertion.tag + if insertion.found = 0 then 1 else 0 := by
  unfold Process.store
  dsimp only
  rw [isUser, BitVec.and_comm, and_userMask]
  split
  · simp [Process.firing, PutCall.Fires, List.countP_cons]
  · rename_i nothing
    rw [if_neg, Nat.add_zero]
    · rfl
    · intro zero
      rw [zero, not_or, not_not] at nothing
      exact nothing.2 nothing.1.symm

variable {callback : Fin m}

theorem Single.unrelated (single : Single pid tag callback s) {next : Interleaved n k m Tag}
    (other : Fin n) (sameProc : ∀ p, p ≠ other → next.state.proc p = s.state.proc p)
    (sameInserting : ∀ p, p ≠ other → next.inserting p = s.inserting p)
    (unsent : ∀ i j, ∀ message ∈ next.state.chan i j, message.tag ≠ tag)
    (elsewhere : other ≠ pid → ∀ call ∈ (next.state.proc other).calls, call.tag ≠ tag)
    (bits : (next.state.proc other).table.bits tag = (s.state.proc other).table.bits tag)
    (asked : entered (next.inserting other) tag = entered (s.inserting other) tag)
    (sameCalls : calls next.state callback tag + (next.state.proc pid).firing tag =
      calls s.state callback tag + (s.state.proc pid).firing tag)
    (samePuts : (∃ putter, (putter, tag) ∈ next.state.puts) ↔
      ∃ putter, (putter, tag) ∈ s.state.puts) :
    Single pid tag callback next := by
  have askedAt (p : Fin n) : entered (next.inserting p) tag = entered (s.inserting p) tag := by
    by_cases same : p = other
    · rw [same, asked]
    · rw [sameInserting p same]
  have bitsAt : (next.state.proc pid).table.bits tag = (s.state.proc pid).table.bits tag := by
    by_cases same : pid = other
    · rw [same, bits]
    · rw [sameProc pid same]
  refine ⟨unsent, fun p different => ⟨?_, ?_⟩, ?_, ?_, ?_⟩
  · by_cases same : p = other
    · rw [same]
      exact elsewhere (same ▸ different)
    · rw [sameProc p same]
      exact (single.elsewhere p different).1
  · rw [askedAt]
    exact (single.elsewhere p different).2
  · simp only [askedAt, samePuts]
    exact single.masks
  · simp only [askedAt, samePuts, bitsAt]
    exact single.bits
  · simp only [askedAt, samePuts, sameCalls]
    exact single.once

theorem Single.put_same (single : Single pid tag callback s)
    (alone : ReadsAlone tag s (.put pid tag)) {next : Interleaved n k m Tag}
    (stepped : move tuner s (.put pid tag) = some next) : Single pid tag callback next := by
  cases stepped
  have known : ∃ putter, (putter, tag) ∈ (pid, tag) :: s.state.puts :=
    ⟨pid, List.mem_cons_self⟩
  have asked : entered (Function.update s.inserting pid
        (⟨tag, userMask, (s.state.proc pid).table.bits tag &&& userMask, none⟩ ::
          s.inserting pid) pid) tag =
      (userMask, (s.state.proc pid).table.bits tag) ::ₘ entered (s.inserting pid) tag := by
    rw [Function.update_self, entered_cons, if_pos rfl, and_userMask]
  refine ⟨single.unsent, fun p different => ?_, fun entry membership => ?_, ?_, ?_⟩
  · simp only [Interleaved.insert, State.setProc_proc, if_neg different,
      Function.update_of_ne different]
    exact single.elsewhere p different
  · refine ⟨?_, known⟩
    simp only [Interleaved.insert, asked] at membership
    rcases Multiset.mem_cons.mp membership with rfl | old
    · rfl
    · exact (single.masks entry old).1
  · simp only [Interleaved.insert, State.setProc_proc, if_true, Process.bits_enter, asked]
    rcases single.bits with ⟨all, -⟩ | ⟨unset, -⟩
    · exact .inl ⟨all, known⟩
    · exact .inr ⟨unset, fun _ => Multiset.cons_ne_zero⟩
  · have before := single.once
    have sameCalls : calls { s.state.setProc pid ((s.state.proc pid).enter tag) with
        puts := (pid, tag) :: s.state.puts } callback tag = calls s.state callback tag := rfl
    have sameFiring : ((s.state.proc pid).enter tag).firing tag =
        (s.state.proc pid).firing tag := rfl
    simp only [Interleaved.insert, State.setProc_proc, if_true, asked, if_pos known,
      sameFiring, Multiset.countP_cons]
    rw [sameCalls]
    rcases single.bits with ⟨all, earlier⟩ | ⟨unset, waiting⟩
    · rw [if_pos earlier] at before
      have found : userMask ≠ 0 := by decide
      rw [all, if_neg found, Nat.add_zero]
      exact before
    · have first : ¬ ∃ putter, (putter, tag) ∈ s.state.puts := by
        intro earlier
        obtain ⟨entry, membership⟩ := Multiset.exists_mem_of_ne_zero (waiting earlier)
        obtain ⟨insertion, isListed, -⟩ := List.mem_map.mp membership
        obtain ⟨isInserting, isTag⟩ := List.mem_filter.mp isListed
        exact alone rfl unset insertion isInserting (of_decide_eq_true isTag)
      rw [if_neg first] at before
      rw [unset, if_pos rfl]
      omega

theorem Single.insert_other (single : Single pid tag callback s) {other : Fin n} {another : Tag}
    {next : Interleaved n k m Tag} (mask : BitVec 32) (different : another ≠ tag)
    (sameProc : next.state.proc = (s.insert other another mask).state.proc)
    (sameInserting : next.inserting = (s.insert other another mask).inserting)
    (unsent : ∀ i j, ∀ message ∈ next.state.chan i j, message.tag ≠ tag)
    (sameCalls : calls next.state callback tag = calls s.state callback tag)
    (samePuts : (∃ putter, (putter, tag) ∈ next.state.puts) ↔
      ∃ putter, (putter, tag) ∈ s.state.puts) :
    Single pid tag callback next := by
  have procAt (p : Fin n) : next.state.proc p =
      if p = other then (s.state.proc other).enter another else s.state.proc p := by
    rw [sameProc, Interleaved.insert, State.setProc_proc]
  have callsAt (p : Fin n) : (next.state.proc p).calls = (s.state.proc p).calls := by
    rw [procAt]
    split
    · rename_i same
      rw [same]
      rfl
    · rfl
  refine single.unrelated other (fun p notOther => ?_) (fun p notOther => ?_) unsent ?_ ?_ ?_ ?_
    samePuts
  · rw [procAt, if_neg notOther]
  · rw [sameInserting]
    exact Function.update_of_ne notOther _ _
  · rw [callsAt]
    exact fun notPid => (single.elsewhere other notPid).1
  · rw [procAt, if_pos rfl, Process.bits_enter]
  · simp only [sameInserting, Interleaved.insert, Function.update_self, entered_cons,
      if_neg different]
  · rw [sameCalls, Process.firing, callsAt, Process.firing]

theorem Single.load (single : Single pid tag callback s) {other : Fin n}
    {insertion : Insertion Tag} {next : Interleaved n k m Tag}
    (stepped : move tuner s (.load other insertion) = some next) :
    Single pid tag callback next := by
  simp only [move, Option.ite_none_right_eq_some, Option.some.injEq] at stepped
  obtain ⟨⟨member, -⟩, rfl⟩ := stepped
  refine single.unrelated other (fun _ _ => rfl) (fun p different => ?_) single.unsent
    (fun different => (single.elsewhere other different).1) rfl ?_ rfl Iff.rfl
  · exact Function.update_of_ne different _ _
  · simp only [Function.update_self, entered_cons, entered_erase member]

theorem Single.store_other (single : Single pid tag callback s) {other : Fin n}
    {insertion : Insertion Tag} {bits : BitVec 32} {next : Interleaved n k m Tag}
    (different : insertion.tag ≠ tag)
    (stepped : move tuner s (.store other insertion bits) = some next) :
    Single pid tag callback next := by
  simp only [move, Option.ite_none_right_eq_some, Option.some.injEq] at stepped
  obtain ⟨⟨member, -⟩, rfl⟩ := stepped
  refine single.unrelated other (fun p notOther => ?_) (fun p notOther => ?_) single.unsent
    (fun notPid call membership => ?_) ?_ ?_ ?_ Iff.rfl
  · rw [State.setProc_proc, if_neg notOther]
  · exact Function.update_of_ne notOther _ _
  · rw [State.setProc_proc, if_pos rfl] at membership
    rcases Process.mem_store_calls membership with isOther | old
    · exact isOther ▸ different
    · exact (single.elsewhere other notPid).1 call old
  · rw [State.setProc_proc, if_pos rfl, Process.bits_store, if_neg (Ne.symm different)]
  · simp only [Function.update_self, entered_erase member, if_neg different]
  · rw [State.setProc_proc]
    split
    · rename_i same
      rw [Process.firing_store_other bits different, same]
      rfl
    · rfl

theorem Single.store_same (single : Single pid tag callback s) {other : Fin n}
    {insertion : Insertion Tag} {bits : BitVec 32} {next : Interleaved n k m Tag}
    (isTag : insertion.tag = tag)
    (stepped : move tuner s (.store other insertion bits) = some next) :
    Single pid tag callback next := by
  simp only [move, Option.ite_none_right_eq_some, Option.some.injEq] at stepped
  obtain ⟨⟨member, -⟩, rfl⟩ := stepped
  subst isTag
  have asked := mem_entered member
  obtain rfl : other = pid := by
    by_contra different
    rw [(single.elsewhere other different).2] at asked
    exact Multiset.notMem_zero _ asked
  obtain ⟨isUser, known⟩ : insertion.mask = userMask ∧ ∃ putter, _ := single.masks _ asked
  have rest : entered (s.inserting other) insertion.tag =
      (insertion.mask, insertion.found) ::ₘ
        entered ((s.inserting other).erase insertion) insertion.tag := by
    rw [entered_erase member, if_pos rfl]
  refine ⟨single.unsent, fun p different => ?_, fun entry membership => ?_, ?_, ?_⟩
  · simp only [State.setProc_proc, if_neg different, Function.update_of_ne different]
    exact single.elsewhere p different
  · simp only [Function.update_self] at membership
    exact single.masks entry (rest ▸ Multiset.mem_cons_of_mem membership)
  · simp only [State.setProc_proc, if_true, Process.bits_store]
    exact .inl ⟨by rw [isUser, or_userMask], known⟩
  · have before := single.once
    have sameCalls : calls (s.state.setProc other ((s.state.proc other).store insertion bits))
        callback insertion.tag = calls s.state callback insertion.tag := rfl
    simp only [State.setProc_proc, if_true, Function.update_self,
      Process.firing_store_user _ bits isUser]
    simp only [rest, Multiset.countP_cons] at before
    rw [if_pos known] at before
    rw [sameCalls]
    refine Eq.trans ?_ (if_pos known).symm
    omega

theorem Single.visit (single : Single pid tag callback s) {other chosen : Fin n}
    {call : PutCall k Tag} {next : Interleaved n k m Tag}
    (stays : StaysHere tuner tag (.visit other call chosen))
    (stepped : move tuner s (.visit other call chosen) = some next) :
    Single pid tag callback next := by
  simp only [move, Option.map_eq_some_iff, CnC.Tag.step] at stepped
  obtain ⟨state, stepped, rfl⟩ := stepped
  split at stepped
  · cases stepped
  rename_i coll rest remaining
  simp only [Option.ite_none_right_eq_some, Option.some.injEq] at stepped
  obtain ⟨member, rfl⟩ := stepped
  have receivers : call.tag = tag →
      ((s.state.proc other).visit tuner other call coll rest chosen).2 = [] := by
    intro same
    unfold Process.visit
    dsimp only
    split
    · rename_i creates
      have here := stays same coll (by simp [remaining]) creates
      rw [same]
      exact here
    · rfl
  have table : ((s.state.proc other).visit tuner other call coll rest chosen).1.table =
      (s.state.proc other).table := by
    unfold Process.visit
    dsimp only
    split <;> rfl
  have callsAfter : ((s.state.proc other).visit tuner other call coll rest chosen).1.calls =
      { call with rest } :: (s.state.proc other).calls.erase call := by
    unfold Process.visit
    dsimp only
    split <;> rfl
  refine single.unrelated other (fun p different => ?_) (fun _ _ => rfl)
    (fun i j message membership => ?_) (fun different another membership => ?_) ?_ rfl ?_ Iff.rfl
  · exact Function.update_of_ne different _ _
  · rcases Channels.mem_post.mp membership with old | ⟨-, listed, rfl⟩
    · exact single.unsent i j message old
    · intro same
      rw [receivers same] at listed
      cases listed
  · simp only [State.setProc_proc, if_true, callsAfter] at membership
    rcases List.mem_cons.mp membership with rfl | old
    · exact (single.elsewhere other different).1 call member
    · exact (single.elsewhere other different).1 another (List.mem_of_mem_erase old)
  · simp only [State.setProc_proc, if_true, table]
  · have firing : ((s.state.proc other).visit tuner other call coll rest chosen).1.firing tag =
        (s.state.proc other).firing tag := by
      rw [Process.firing, callsAfter, Process.firing,
        (List.perm_cons_erase member).countP_eq, List.countP_cons, List.countP_cons]
      rfl
    simp only [State.setProc_proc]
    split
    · rename_i same
      rw [firing, same]
      rfl
    · rfl

theorem countP_callbacks (other : Fin n) (another : Tag) :
    (callbacks m other another).countP
      (fun entry => entry.2.1 = callback ∧ entry.2.2 = tag) = if another = tag then 1 else 0 := by
  rw [callbacks, List.countP_map]
  by_cases same : another = tag
  · rw [if_pos same]
    have once := List.count_eq_one_of_mem (List.nodup_finRange m) (List.mem_finRange callback)
    rw [← once, List.count]
    apply List.countP_congr
    intro candidate _
    simp [same]
  · rw [if_neg same, List.countP_eq_zero]
    simp [same]

theorem Single.finish (single : Single pid tag callback s) {other : Fin n}
    {call : PutCall k Tag} {next : Interleaved n k m Tag}
    (stepped : move tuner s (.finish other call) = some next) :
    Single pid tag callback next := by
  simp only [move, Option.map_eq_some_iff, CnC.Tag.step, Option.ite_none_right_eq_some,
    Option.some.injEq] at stepped
  obtain ⟨state, ⟨⟨member, -⟩, rfl⟩, rfl⟩ := stepped
  have firing : (s.state.proc other).firing tag =
      ((s.state.proc other).calls.erase call).countP (fun call => call.Fires tag) +
        if call.Fires tag then 1 else 0 := by
    rw [Process.firing, (List.perm_cons_erase member).countP_eq, List.countP_cons]
    simp
  have counted : (if call.found = 0 then callbacks m other call.tag ++ s.state.onPuts
      else s.state.onPuts).countP (fun entry => entry.2.1 = callback ∧ entry.2.2 = tag) =
      calls s.state callback tag + if call.Fires tag then 1 else 0 := by
    unfold calls
    by_cases zero : call.found = 0
    · rw [if_pos zero, List.countP_append, countP_callbacks, Nat.add_comm]
      simp [PutCall.Fires, zero]
    · have silent : ¬ call.Fires tag := fun fires => zero fires.2
      rw [if_neg zero, if_neg silent, Nat.add_zero]
  refine single.unrelated other (fun p different => ?_) (fun _ _ => rfl) single.unsent
    (fun different another membership => ?_) ?_ rfl ?_ Iff.rfl
  · exact Function.update_of_ne different _ _
  · simp only [State.setProc_proc, if_true] at membership
    exact (single.elsewhere other different).1 another (List.mem_of_mem_erase membership)
  · simp only [State.setProc_proc, if_true]
  · rw [calls, counted]
    simp only [State.setProc_proc]
    by_cases same : pid = other
    · rw [if_pos same, same, firing]
      simp only [Process.firing]
      omega
    · rw [if_neg same]
      have notOurs : ¬ call.Fires tag := fun fires =>
        (single.elsewhere other (Ne.symm same)).1 call member fires.1
      rw [if_neg notOurs, Nat.add_zero]

theorem Single.step (single : Single pid tag callback s) {action : Move n k Tag}
    {next : Interleaved n k m Tag} (here : PutsAt pid tag action)
    (stays : StaysHere tuner tag action) (alone : ReadsAlone tag s action)
    (stepped : move tuner s action = some next) : Single pid tag callback next := by
  cases action with
  | put other another =>
      by_cases same : another = tag
      · obtain rfl := here same
        subst same
        exact single.put_same alone stepped
      · cases stepped
        exact single.insert_other userMask same rfl rfl single.unsent rfl (by simp [Ne.symm same])
  | receive source target message =>
      simp only [move, Option.ite_none_right_eq_some, Option.some.injEq] at stepped
      obtain ⟨inFlight, rfl⟩ := stepped
      have different := single.unsent source target message (List.contains_iff_mem.mp inFlight)
      refine single.insert_other (stepId message.coll) different rfl rfl ?_ rfl Iff.rfl
      intro i j other membership
      rcases Channels.mem_setQueue membership with ⟨rfl, rfl, remaining⟩ | old
      · exact single.unsent i j other (List.mem_of_mem_erase remaining)
      · exact single.unsent i j other old
  | load other insertion => exact single.load stepped
  | store other insertion bits =>
      by_cases same : insertion.tag = tag
      · exact single.store_same same stepped
      · exact single.store_other same stepped
  | visit other call chosen => exact single.visit stays stepped
  | finish other call => exact single.finish stepped

/-- In every run in which users put the tag on one process, its step instances
are not passed on, and no put reads the bits before the first one has written
them, every callback has been called exactly once for the tag when all puts have
returned. -/
theorem callbacks_once
    (reached : Reached (interleaved tuner) (fun s action =>
      PutsAt pid tag action ∧ StaysHere tuner tag action ∧ ReadsAlone tag s action) s)
    (put : ∃ putter, (putter, tag) ∈ s.state.puts) (quiescent : s.Quiescent)
    (callback : Fin m) :
    calls s.state callback tag = 1 := by
  have single : Single pid tag callback s := by
    refine Reached.invariant (Single pid tag callback) ?_ ?_ reached
    · rintro _ rfl
      exact single_start callback
    · intro before action next _ single allowed stepped
      exact single.step allowed.1 allowed.2.1 allowed.2.2 stepped
  have once := single.once
  rw [if_pos put, Process.firing, quiescent.1.1 pid, quiescent.2 pid] at once
  simpa [entered] using once

end Invariant

/-- One step collection on two processes, whose instances are executed on one of
them, and one callback. -/
def computeOnPid (pid : Fin 2) : Tuner 2 1 Nat where
  computeOn _ _ _ := .pid pid
  distributed := true
  distributed_of_several _ := rfl

def userInsertion (found : BitVec 32) (loaded : Option (BitVec 32)) : Insertion Nat :=
  ⟨5, userMask, found, loaded⟩

/-- Process 0 puts tag 5, and puts it again while the first put is creating its
instance. -/
def putAgain : List (Move 2 1 Nat) :=
  [.put 0 5, .load 0 (userInsertion 0 none), .store 0 (userInsertion 0 (some 0)) 0,
    .put 0 5, .visit 0 ⟨5, userMask, 0, [0]⟩ 0, .load 0 (userInsertion userMask none),
    .finish 0 ⟨5, userMask, 0, []⟩,
    .store 0 (userInsertion userMask (some userMask)) userMask,
    .visit 0 ⟨5, userMask, userMask, [0]⟩ 0, .finish 0 ⟨5, userMask, userMask, []⟩]

theorem callbacks_once_putAgain :
    ∃ s : Interleaved 2 1 1 Nat,
      (interleaved (computeOnPid 0)).run
        (fun s action => PutsAt 0 5 action ∧ StaysHere (computeOnPid 0) 5 action ∧
          ReadsAlone 5 s action)
          ⟨start 2 1 1 Nat, fun _ => []⟩ putAgain = some s ∧
        s.state.puts = [(0, 5), (0, 5)] ∧ s.Quiescent ∧ calls s.state 0 5 = 1 := by
  obtain ⟨s, computed⟩ : ∃ s, (interleaved (computeOnPid 0)).run
      (fun s action => PutsAt 0 5 action ∧ StaysHere (computeOnPid 0) 5 action ∧
        ReadsAlone 5 s action)
        (⟨start 2 1 1 Nat, fun _ => []⟩ : Interleaved 2 1 1 Nat) putAgain = some s := ⟨_, rfl⟩
  have reached := Reached.run (.initial rfl) putAgain computed
  have puts : s.state.puts = [(0, 5), (0, 5)] := by
    cases computed
    decide
  have quiescent : s.Quiescent := by
    cases computed
    decide
  exact ⟨s, computed, puts, quiescent,
    callbacks_once reached ⟨0, puts ▸ List.mem_cons_self⟩ quiescent 0⟩

def putAndPassOn : List (Move 2 1 Nat) :=
  [.put 0 5, .load 0 (userInsertion 0 none), .store 0 (userInsertion 0 (some 0)) 0,
    .visit 0 ⟨5, userMask, 0, [0]⟩ 0, .finish 0 ⟨5, userMask, 0, []⟩,
    .receive 0 1 ⟨5, 0⟩, .load 1 ⟨5, stepId (0 : Fin 1), 0, none⟩,
    .store 1 ⟨5, stepId (0 : Fin 1), 0, some 0⟩ 0,
    .visit 1 ⟨5, stepId (0 : Fin 1), 0, [0]⟩ 0, .finish 1 ⟨5, stepId (0 : Fin 1), 0, []⟩]

/-- The callback is called on both processes, though the tag is put once. -/
theorem callback_called_twice :
    ∃ s : Interleaved 2 1 1 Nat,
      (interleaved (computeOnPid 1)).run (fun s action => PutsAt 0 5 action ∧
          ReadsAlone 5 s action) ⟨start 2 1 1 Nat, fun _ => []⟩ putAndPassOn = some s ∧
        s.state.puts = [(0, 5)] ∧ s.Quiescent ∧ s.state.onPuts = [(1, 0, 5), (0, 0, 5)] ∧
        calls s.state 0 5 ≠ 1 :=
  ⟨_, rfl, by decide, by decide, by decide, by decide⟩

/-- Two threads of process 0 put tag 5, and both read the bits before one writes them. -/
def putTogether : List (Move 2 1 Nat) :=
  [.put 0 5, .put 0 5, .load 0 (userInsertion 0 none),
    .store 0 (userInsertion 0 (some 0)) 0, .load 0 (userInsertion 0 none),
    .store 0 (userInsertion 0 (some userMask)) userMask,
    .visit 0 ⟨5, userMask, 0, [0]⟩ 0, .finish 0 ⟨5, userMask, 0, []⟩,
    .visit 0 ⟨5, userMask, 0, [0]⟩ 0, .finish 0 ⟨5, userMask, 0, []⟩]

/-- The callback is called by both puts. -/
example : ∃ s : Interleaved 2 1 1 Nat,
      (interleaved (computeOnPid 0)).run (fun _ action => PutsAt 0 5 action ∧
          StaysHere (computeOnPid 0) 5 action)
          ⟨start 2 1 1 Nat, fun _ => []⟩ putTogether = some s ∧
        s.Quiescent ∧ s.state.onPuts = [(0, 0, 5), (0, 0, 5)] :=
  ⟨_, rfl, by decide, by decide⟩

end CnC.Tag
