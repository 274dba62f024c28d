import CnC.Tag.Collection

/-!
# Memoization of tags across processes

If the answer of `compute_on` is the same on every process, then a put by a
user and a TAG message from another process can both bring a tag to a process,
but the bits of its tag table let at most one of them create a step instance.
-/

namespace CnC.Tag

open Network Transition

universe u

variable {n k m : Nat} {Tag : Type u}

/-- The step instance is to be executed on the process. -/
def IsTarget (tuner : Tuner n k Tag) (coll : Fin k) (tag : Tag) (pid : Fin n) : Prop :=
  tuner.computeOn pid coll tag = .pid pid ∨ tuner.computeOn pid coll tag = .all

instance (tuner : Tuner n k Tag) (coll : Fin k) (tag : Tag) (pid : Fin n) :
    Decidable (IsTarget tuner coll tag pid) :=
  inferInstanceAs (Decidable (_ ∨ _))

/-- All processes give the same answer, which is a process or COMPUTE_ON_ALL. -/
def Uniform (tuner : Tuner n k Tag) : Prop :=
  ∀ coll tag, (∃ target, ∀ self, tuner.computeOn self coll tag = .pid target) ∨
    ∀ self, tuner.computeOn self coll tag = .all

/-- An instance stays on the process if this is a target, and is passed on to
the other targets. -/
theorem createStepInstance_uniform {tuner : Tuner n k Tag} (uniform : Uniform tuner)
    (self : Fin n) (coll : Fin k) (tag : Tag) (next : Fin n) :
    ((createStepInstance tuner self coll tag true next).1 = true ↔ IsTarget tuner coll tag self) ∧
      ∀ pid, pid ∈ (createStepInstance tuner self coll tag true next).2 ↔
        pid ≠ self ∧ IsTarget tuner coll tag pid := by
  have alone : tuner.distributed = false → ∀ pid : Fin n, pid = self := by
    intro notDistributed pid
    have single : ¬ 1 < n := by
      intro several
      rw [tuner.distributed_of_several several] at notDistributed
      cases notDistributed
    exact Fin.ext (by omega)
  rcases uniform coll tag with ⟨target, answer⟩ | answer
  · have isTarget : ∀ pid, IsTarget tuner coll tag pid ↔ target = pid := by
      intro pid
      simp [IsTarget, answer]
    cases distributed : tuner.distributed with
    | false =>
        have everyone := alone distributed
        simp only [isTarget, createStepInstance, distributed, everyone target]
        refine ⟨by simp, fun pid => ?_⟩
        simp [everyone pid]
    | true =>
        simp only [isTarget, createStepInstance, distributed, answer, getTargetPid]
        by_cases same : target = self
        · subst same
          refine ⟨by simp, fun pid => ?_⟩
          simp only [Bool.and_self, if_true, List.not_mem_nil, false_iff, not_and]
          exact fun different => different.symm
        · refine ⟨by simp [same], fun pid => ?_⟩
          simp only [Bool.and_self, if_true, same, if_false, List.mem_singleton]
          constructor
          · rintro rfl
            exact ⟨same, rfl⟩
          · exact fun both => both.2.symm
  · have isTarget : ∀ pid, IsTarget tuner coll tag pid := fun pid => .inr (answer pid)
    cases distributed : tuner.distributed with
    | false =>
        have everyone := alone distributed
        refine ⟨by simp [createStepInstance, distributed, isTarget], fun pid => ?_⟩
        simp [createStepInstance, distributed, everyone pid]
    | true =>
        simp [createStepInstance, distributed, answer, getTargetPid, isTarget]

def Process.bit (process : Process k Tag) (tag : Tag) (coll : Fin k) : Bool :=
  (process.table.bits tag).getLsbD coll

section Process

variable [DecidableEq Tag] {process : Process k Tag} {tag : Tag} {coll : Fin k}

def PutCall.pending (tag : Tag) (coll : Fin k) (call : PutCall k Tag) : Nat :=
  if call.tag = tag ∧ call.creates coll = true then call.rest.count coll else 0

/-- How many instances the calls on a process have still to create. -/
def Process.pending (process : Process k Tag) (tag : Tag) (coll : Fin k) : Nat :=
  (process.calls.map (PutCall.pending tag coll)).sum

theorem Process.put_created (tag : Tag) (mask : BitVec 32) :
    (process.put tag mask).created = process.created := by
  unfold Process.put
  dsimp only
  split <;> rfl

theorem Process.put_bit (other : Tag) (mask : BitVec 32) :
    (process.put other mask).bit tag coll =
      (process.bit tag coll || (decide (tag = other) && mask.getLsbD coll)) := by
  have table : (process.put other mask).table = (process.table.insert other mask).1 := by
    unfold Process.put
    dsimp only
    split <;> rfl
  rw [Process.bit, table, Process.bit]
  by_cases same : tag = other
  · subst same
    simp [TagTable.insert, TagTable.bits]
  · simp [TagTable.insert, TagTable.bits, same]

theorem Process.put_calls (process : Process k Tag) (tag : Tag) (coll : Fin k) (other : Tag)
    (mask : BitVec 32) :
    ∃ calls, (process.put other mask).calls = calls ++ process.calls ∧
      (∀ call ∈ calls, call.tag = other ∧ call.mask = mask) ∧
      (coll.val < 32 → (calls.map (PutCall.pending tag coll)).sum =
        if tag = other ∧ mask.getLsbD coll = true ∧ process.bit tag coll = false then 1 else 0) := by
  have found : ∀ small : coll.val < 32, ∀ rest : List (Fin k),
      (PutCall.mk other mask (process.table.insert other mask).2 rest).creates coll = true ↔
        mask.getLsbD coll = true ∧ process.bit other coll = false := by
    intro small rest
    rw [PutCall.creates_iff _ small]
    simp only [TagTable.insert, Process.bit, BitVec.getLsbD_and]
    cases mask.getLsbD coll <;> simp
  unfold Process.put
  dsimp only
  split
  · refine ⟨[_], rfl, by simp, fun small => ?_⟩
    have once : (List.finRange k).count coll = 1 :=
      List.count_eq_one_of_mem (List.nodup_finRange k) (List.mem_finRange coll)
    simp only [List.map_cons, List.map_nil, List.sum_cons, List.sum_nil, PutCall.pending,
      found small, once, Nat.add_zero]
    by_cases same : tag = other
    · subst same
      simp
    · simp [same, Ne.symm same]
  · rename_i nothing
    refine ⟨[], rfl, by simp, fun small => ?_⟩
    simp only [not_or, not_not] at nothing
    have bits := congrArg (fun bits => bits.getLsbD coll) nothing.1
    simp only [TagTable.insert, BitVec.getLsbD_and, getLsbD_allMask small, Bool.and_true] at bits
    rw [List.map_nil, List.sum_nil, if_neg]
    rintro ⟨rfl, named, unset⟩
    rw [Process.bit] at unset
    simp [named, unset] at bits

theorem Process.put_pending (other : Tag) (mask : BitVec 32) (small : coll.val < 32) :
    (process.put other mask).pending tag coll = process.pending tag coll +
      if tag = other ∧ mask.getLsbD coll = true ∧ process.bit tag coll = false then 1 else 0 := by
  obtain ⟨calls, added, -, created⟩ := process.put_calls tag coll other mask
  rw [Process.pending, added, List.map_append, List.sum_append, created small, Process.pending]
  exact Nat.add_comm _ _

section Visit

variable (tuner : Tuner n k Tag) (self next : Fin n) {call : PutCall k Tag} {visited : Fin k}
  {rest : List (Fin k)}

theorem Process.visit_bit : (process.visit tuner self call visited rest next).1.bit tag coll =
    process.bit tag coll := by
  unfold Process.visit
  dsimp only
  split <;> rfl

theorem Process.visit_calls : (process.visit tuner self call visited rest next).1.calls =
    { call with rest } :: process.calls.erase call := by
  unfold Process.visit
  dsimp only
  split <;> rfl

theorem Process.visit_receivers : (process.visit tuner self call visited rest next).2 =
    if call.creates visited = true then
      (createStepInstance tuner self visited call.tag (call.mask = userMask) next).2
    else [] := by
  unfold Process.visit
  dsimp only
  split <;> rfl

/-- An iteration of the loop takes away what the call had to create for the step
collection it visits. -/
theorem Process.visit_pending (member : call ∈ process.calls)
    (remaining : call.rest = visited :: rest) :
    (process.visit tuner self call visited rest next).1.pending tag coll +
        (if call.tag = tag ∧ visited = coll ∧ call.creates coll = true then 1 else 0) =
      process.pending tag coll := by
  have taken : process.pending tag coll =
      call.pending tag coll + ((process.calls.erase call).map (PutCall.pending tag coll)).sum := by
    rw [Process.pending, ((List.perm_cons_erase member).map _).sum_eq]
    rfl
  have sameTest : PutCall.creates { call with rest } coll = call.creates coll := rfl
  have shorter : PutCall.pending tag coll { call with rest } +
      (if call.tag = tag ∧ visited = coll ∧ call.creates coll = true then 1 else 0) =
        call.pending tag coll := by
    simp only [PutCall.pending, sameTest, remaining, List.count_cons]
    by_cases meant : call.tag = tag ∧ call.creates coll = true
    · by_cases same : visited = coll <;> simp [meant, same]
    · have notHere : ¬ (call.tag = tag ∧ visited = coll ∧ call.creates coll = true) := by
        tauto
      simp [meant, notHere]
  rw [Process.pending, Process.visit_calls, List.map_cons, List.sum_cons, taken]
  omega

theorem Process.visit_created :
    (process.visit tuner self call visited rest next).1.created.count (tag, coll) =
      process.created.count (tag, coll) +
        if call.tag = tag ∧ visited = coll ∧ call.creates coll = true ∧
          (createStepInstance tuner self coll tag (call.mask = userMask) next).1 = true then 1
        else 0 := by
  unfold Process.visit
  dsimp only
  by_cases creates : call.creates visited = true
  · rw [if_pos creates]
    by_cases here : (createStepInstance tuner self visited call.tag (call.mask = userMask) next).1 = true
    · rw [if_pos here, List.count_cons]
      by_cases same : call.tag = tag ∧ visited = coll
      · obtain ⟨rfl, rfl⟩ := same
        simp [creates, here]
      · have notHere : ¬ (call.tag = tag ∧ visited = coll ∧ call.creates coll = true ∧
            (createStepInstance tuner self coll tag (call.mask = userMask) next).1 = true) := by
          tauto
        simp [same, notHere]
    · rw [if_neg here, if_neg, Nat.add_zero]
      rintro ⟨rfl, rfl, -, kept⟩
      exact here kept
  · rw [if_neg creates, if_neg, Nat.add_zero]
    rintro ⟨-, rfl, created, -⟩
    exact creates created

end Visit

end Process

section Invariant

variable [DecidableEq Tag] {tuner : Tuner n k Tag} {tag : Tag} {coll : Fin k}

def PutCall.Open (tag : Tag) (coll : Fin k) (call : PutCall k Tag) : Prop :=
  call.tag = tag ∧ call.mask = userMask ∧ call.creates coll = true ∧ coll ∈ call.rest

/-- The invariant for a tag and a step collection.  On a target whose bit is set
one instance has been created or is about to be; every target whose bit is not
set will hear of the tag. -/
structure Memoized (tuner : Tuner n k Tag) (tag : Tag) (coll : Fin k)
    (s : State n k m Tag) : Prop where
  fresh : ∀ pid, (s.proc pid).bit tag coll = false →
    (s.proc pid).created.count (tag, coll) = 0 ∧ (s.proc pid).pending tag coll = 0
  target : ∀ pid, IsTarget tuner coll tag pid → (s.proc pid).bit tag coll = true →
    (s.proc pid).created.count (tag, coll) + (s.proc pid).pending tag coll = 1
  elsewhere : ∀ pid, ¬ IsTarget tuner coll tag pid → (s.proc pid).created.count (tag, coll) = 0
  meant : ∀ pid, ∀ call ∈ (s.proc pid).calls, call.tag = tag → call.creates coll = true →
    call.mask = userMask ∨ IsTarget tuner coll tag pid
  sent : ∀ i j, ⟨tag, coll⟩ ∈ s.chan i j → IsTarget tuner coll tag j
  put : (∃ pid, (s.proc pid).bit tag coll = true) ∨ (∃ i j, ⟨tag, coll⟩ ∈ s.chan i j) →
    ∃ pid, (pid, tag) ∈ s.puts
  told : (∃ pid, (pid, tag) ∈ s.puts) → ∀ pid, IsTarget tuner coll tag pid →
    (s.proc pid).bit tag coll = true ∨ (∃ i, ⟨tag, coll⟩ ∈ s.chan i pid) ∨
      ∃ other, ∃ call ∈ (s.proc other).calls, call.Open tag coll

variable {s : State n k m Tag}

theorem memoized_start : Memoized tuner tag coll (start n k m Tag) where
  fresh _ _ := ⟨rfl, rfl⟩
  target _ _ set := by
    simp [start, Process.bit, TagTable.bits] at set
  elsewhere _ _ := rfl
  meant _ _ membership := by cases membership
  sent _ _ membership := by cases membership
  put known := by
    rcases known with ⟨pid, set⟩ | ⟨i, j, membership⟩
    · simp [start, Process.bit, TagTable.bits] at set
    · cases membership
  told known := by
    obtain ⟨pid, membership⟩ := known
    cases membership

theorem PutCall.open_of_pending {call : PutCall k Tag} (pending : call.pending tag coll ≠ 0)
    (byUser : call.mask = userMask) : call.Open tag coll := by
  unfold PutCall.pending at pending
  split at pending
  · rename_i creates
    exact ⟨creates.1, byUser, creates.2, List.count_pos_iff.mp (Nat.pos_of_ne_zero pending)⟩
  · exact absurd rfl pending

/-- The insertion of a tag, by a put of a user or for a message.  The message
which is taken from its channel, if it is about the step collection, sets the
bit. -/
theorem Memoized.insert (memoized : Memoized tuner tag coll s) (small : coll.val < 32)
    {pid : Fin n} {other : Tag} {mask : BitVec 32} {chan : Channels (Fin n) (Msg k Tag)}
    {puts : List (Fin n × Tag)} (kept : ∀ put ∈ s.puts, put ∈ puts)
    (new : ∀ p, (p, tag) ∈ puts →
      (∃ q, (q, tag) ∈ s.puts) ∨ (tag = other ∧ mask = userMask))
    (fewer : ∀ i j, ⟨tag, coll⟩ ∈ chan i j → ⟨tag, coll⟩ ∈ s.chan i j)
    (taken : ∀ i j, ⟨tag, coll⟩ ∈ s.chan i j →
      ⟨tag, coll⟩ ∈ chan i j ∨ (j = pid ∧ tag = other ∧ mask.getLsbD coll = true))
    (meant : tag = other → mask.getLsbD coll = true →
      (∃ q, (q, tag) ∈ puts) ∧ (mask = userMask ∨ IsTarget tuner coll tag pid)) :
    Memoized tuner tag coll
      { s.setProc pid ((s.proc pid).put other mask) with chan := chan, puts := puts } := by
  have bits : ∀ p, (s.proc p).bit tag coll = true →
      (if p = pid then (s.proc pid).put other mask else s.proc p).bit tag coll = true := by
    intro p set
    split
    · rename_i same
      rw [Process.put_bit, ← same, set, Bool.true_or]
    · exact set
  obtain ⟨calls, added, new_calls, created⟩ := (s.proc pid).put_calls tag coll other mask
  have oldCalls : ∀ p, ∀ call ∈ (s.proc p).calls,
      call ∈ (if p = pid then (s.proc pid).put other mask else s.proc p).calls := by
    intro p call membership
    split
    · rename_i same
      rw [added, ← same]
      exact List.mem_append_right _ membership
    · exact membership
  have told : (∃ p, (p, tag) ∈ s.puts) → ∀ p, IsTarget tuner coll tag p →
      (if p = pid then (s.proc pid).put other mask else s.proc p).bit tag coll = true ∨
        (∃ i, ⟨tag, coll⟩ ∈ chan i p) ∨ ∃ q, ∃ call ∈
          (if q = pid then (s.proc pid).put other mask else s.proc q).calls,
            call.Open tag coll := by
    intro known p isTarget
    rcases memoized.told known p isTarget with set | ⟨i, membership⟩ | ⟨q, call, membership, isOpen⟩
    · exact .inl (bits p set)
    · rcases taken i p membership with still | ⟨rfl, same, named⟩
      · exact .inr (.inl ⟨i, still⟩)
      · refine .inl ?_
        rw [if_pos rfl, Process.put_bit]
        simp [same, named]
    · exact .inr (.inr ⟨q, call, oldCalls q call membership, isOpen⟩)
  refine ⟨?_, ?_, ?_, ?_, fun i j membership => memoized.sent i j (fewer i j membership), ?_, ?_⟩
  · intro p unset
    rw [State.setProc_proc] at unset ⊢
    split at unset
    · rename_i same
      rw [if_pos same]
      rw [Process.put_bit, Bool.or_eq_false_iff] at unset
      obtain ⟨notCreated, notPending⟩ := memoized.fresh pid unset.1
      refine ⟨by rw [Process.put_created, notCreated], ?_⟩
      rw [Process.put_pending other mask small, notPending, if_neg]
      rintro ⟨sameTag, named, -⟩
      simp [sameTag, named] at unset
    · rename_i different
      rw [if_neg different]
      exact memoized.fresh p unset
  · intro p isTarget set
    rw [State.setProc_proc] at set ⊢
    split at set
    · rename_i same
      subst same
      rw [if_pos rfl, Process.put_created, Process.put_pending other mask small]
      cases before : (s.proc p).bit tag coll with
      | true => simpa using memoized.target p isTarget before
      | false =>
          obtain ⟨notCreated, notPending⟩ := memoized.fresh p before
          rw [Process.put_bit, before, Bool.false_or, Bool.and_eq_true, decide_eq_true_eq] at set
          rw [notCreated, notPending, if_pos ⟨set.1, set.2, rfl⟩]
    · rename_i different
      rw [if_neg different]
      exact memoized.target p isTarget set
  · intro p notTarget
    rw [State.setProc_proc]
    split
    · rename_i same
      rw [Process.put_created, ← same]
      exact memoized.elsewhere p notTarget
    · exact memoized.elsewhere p notTarget
  · intro p call membership sameTag creates
    rw [State.setProc_proc] at membership
    split at membership
    · rename_i same
      rw [added, List.mem_append] at membership
      rcases membership with isNew | old
      · obtain ⟨ofOther, ofMask⟩ := new_calls call isNew
        have named := ((call.creates_iff small).mp creates).1
        rw [ofMask] at named ⊢
        rw [same]
        exact (meant (sameTag.symm.trans ofOther) named).2
      · rw [same]
        exact memoized.meant pid call old sameTag creates
    · exact memoized.meant p call membership sameTag creates
  · rintro (⟨p, set⟩ | ⟨i, j, membership⟩)
    · rw [State.setProc_proc] at set
      split at set
      · rw [Process.put_bit, Bool.or_eq_true, Bool.and_eq_true, decide_eq_true_eq] at set
        rcases set with before | ⟨sameTag, named⟩
        · obtain ⟨q, known⟩ := memoized.put (.inl ⟨pid, before⟩)
          exact ⟨q, kept _ known⟩
        · exact (meant sameTag named).1
      · obtain ⟨q, known⟩ := memoized.put (.inl ⟨p, set⟩)
        exact ⟨q, kept _ known⟩
    · obtain ⟨q, known⟩ := memoized.put (.inr ⟨i, j, fewer i j membership⟩)
      exact ⟨q, kept _ known⟩
  · rintro ⟨q, known⟩ p isTarget
    simp only [State.setProc_proc]
    rcases new q known with old | ⟨sameTag, byUser⟩
    · exact told old p isTarget
    · cases before : (s.proc pid).bit tag coll with
      | true => exact told (memoized.put (.inl ⟨pid, before⟩)) p isTarget
      | false =>
          have named : mask.getLsbD coll = true := by
            rw [byUser]
            exact getLsbD_userMask small
          have one := created small
          rw [if_pos ⟨sameTag, named, before⟩] at one
          obtain ⟨call, membership, pending⟩ : ∃ call ∈ calls, call.pending tag coll ≠ 0 := by
            by_contra none
            push Not at none
            have zero : (calls.map (PutCall.pending tag coll)).sum = 0 := by
              rw [List.sum_eq_zero_iff]
              intro value membership
              obtain ⟨call, listed, rfl⟩ := List.mem_map.mp membership
              exact none call listed
            omega
          refine .inr (.inr ⟨pid, call, ?_, PutCall.open_of_pending pending ?_⟩)
          · rw [if_pos rfl, added]
            exact List.mem_append_left _ membership
          · rw [(new_calls call membership).2, byUser]

/-- What a visit does, as far as the step collection is concerned: it creates the
instance here if this process is a target, and tells the other targets. -/
theorem Memoized.visit_receivers (memoized : Memoized tuner tag coll s)
    (uniform : Uniform tuner) {pid : Fin n} (next : Fin n) {call : PutCall k Tag}
    (member : call ∈ (s.proc pid).calls) (sameTag : call.tag = tag)
    (creates : call.creates coll = true) :
    ((createStepInstance tuner pid coll tag (call.mask = userMask) next).1 = true ↔
        IsTarget tuner coll tag pid) ∧
      (∀ p ∈ (createStepInstance tuner pid coll tag (call.mask = userMask) next).2,
        IsTarget tuner coll tag p) ∧
      (call.mask = userMask → ∀ p, p ≠ pid → IsTarget tuner coll tag p →
        p ∈ (createStepInstance tuner pid coll tag (call.mask = userMask) next).2) := by
  by_cases byUser : call.mask = userMask
  · obtain ⟨here, receivers⟩ := createStepInstance_uniform uniform pid coll tag next
    rw [decide_eq_true byUser]
    exact ⟨here, fun p listed => ((receivers p).mp listed).2,
      fun _ p different isTarget => (receivers p).mpr ⟨different, isTarget⟩⟩
  · have isTarget := (memoized.meant pid call member sameTag creates).resolve_left byUser
    simp [createStepInstance, byUser, isTarget]

theorem Memoized.visit (memoized : Memoized tuner tag coll s) (uniform : Uniform tuner)
    {pid next : Fin n} {call : PutCall k Tag} {visited : Fin k} {rest : List (Fin k)}
    (member : call ∈ (s.proc pid).calls) (remaining : call.rest = visited :: rest) :
    Memoized tuner tag coll
      { s.setProc pid ((s.proc pid).visit tuner pid call visited rest next).1 with
        chan := s.chan.post pid ((s.proc pid).visit tuner pid call visited rest next).2
          ⟨call.tag, visited⟩ } := by
  have pendingAfter :
      ((s.proc pid).visit tuner pid call visited rest next).1.pending tag coll +
        (if call.tag = tag ∧ visited = coll ∧ call.creates coll = true then 1 else 0) =
      (s.proc pid).pending tag coll :=
    Process.visit_pending tuner pid next member remaining
  have isSet : call.tag = tag ∧ visited = coll ∧ call.creates coll = true →
      (s.proc pid).bit tag coll = true := by
    intro ours
    by_contra unset
    have none := (memoized.fresh pid (Bool.eq_false_of_not_eq_true unset)).2
    rw [if_pos ours] at pendingAfter
    omega
  have newMessage : ∀ i j, ⟨tag, coll⟩ ∈ s.chan.post pid
      ((s.proc pid).visit tuner pid call visited rest next).2 ⟨call.tag, visited⟩ i j →
      ⟨tag, coll⟩ ∈ s.chan i j ∨ (IsTarget tuner coll tag j ∧
        call.tag = tag ∧ visited = coll ∧ call.creates coll = true) := by
    intro i j membership
    rcases Channels.mem_post.mp membership with old | ⟨-, listed, same⟩
    · exact .inl old
    · obtain ⟨rfl, rfl⟩ : tag = call.tag ∧ coll = visited := by
        simpa using same
      rw [Process.visit_receivers] at listed
      split at listed
      · rename_i creates
        exact .inr ⟨(memoized.visit_receivers uniform next member rfl creates).2.1 j listed,
          rfl, rfl, creates⟩
      · cases listed
  refine ⟨?_, ?_, ?_, ?_, ?_, ?_, ?_⟩
  · intro p unset
    rw [State.setProc_proc] at unset ⊢
    split at unset
    · rename_i same
      rw [Process.visit_bit] at unset
      obtain ⟨notCreated, notPending⟩ := memoized.fresh pid unset
      rw [if_pos same, Process.visit_created, notCreated]
      refine ⟨?_, by omega⟩
      rw [if_neg]
      rintro ⟨sameTag, sameColl, creates, -⟩
      rw [isSet ⟨sameTag, sameColl, creates⟩] at unset
      cases unset
    · rename_i different
      rw [if_neg different]
      exact memoized.fresh p unset
  · intro p isTarget set
    rw [State.setProc_proc] at set ⊢
    split at set
    · rename_i same
      subst same
      rw [Process.visit_bit] at set
      have before := memoized.target p isTarget set
      rw [if_pos rfl, Process.visit_created]
      by_cases ours : call.tag = tag ∧ visited = coll ∧ call.creates coll = true
      · have here := (memoized.visit_receivers uniform next member ours.1
          ours.2.2).1.mpr isTarget
        rw [if_pos ours] at pendingAfter
        rw [if_pos ⟨ours.1, ours.2.1, ours.2.2, here⟩]
        omega
      · rw [if_neg ours] at pendingAfter
        rw [if_neg (fun all => ours ⟨all.1, all.2.1, all.2.2.1⟩)]
        omega
    · rename_i different
      rw [if_neg different]
      exact memoized.target p isTarget set
  · intro p notTarget
    rw [State.setProc_proc]
    split
    · rename_i same
      subst same
      rw [Process.visit_created, memoized.elsewhere p notTarget, if_neg]
      rintro ⟨sameTag, -, creates, here⟩
      exact notTarget ((memoized.visit_receivers uniform next member sameTag creates).1.mp here)
    · exact memoized.elsewhere p notTarget
  · intro p other membership sameTag creates
    rw [State.setProc_proc] at membership
    split at membership
    · rename_i same
      rw [Process.visit_calls] at membership
      rw [same]
      rcases List.mem_cons.mp membership with rfl | old
      · exact memoized.meant pid call member sameTag creates
      · exact memoized.meant pid other (List.mem_of_mem_erase old) sameTag creates
    · exact memoized.meant p other membership sameTag creates
  · intro i j membership
    rcases newMessage i j membership with old | ⟨isTarget, -⟩
    · exact memoized.sent i j old
    · exact isTarget
  · rintro (⟨p, set⟩ | ⟨i, j, membership⟩)
    · rw [State.setProc_proc] at set
      split at set
      · rw [Process.visit_bit] at set
        exact memoized.put (.inl ⟨pid, set⟩)
      · exact memoized.put (.inl ⟨p, set⟩)
    · rcases newMessage i j membership with old | ⟨-, ours⟩
      · exact memoized.put (.inr ⟨i, j, old⟩)
      · exact memoized.put (.inl ⟨pid, isSet ours⟩)
  · intro known p isTarget
    simp only [State.setProc_proc]
    have sameBit : (if p = pid then ((s.proc pid).visit tuner pid call visited rest next).1
        else s.proc p).bit tag coll = (s.proc p).bit tag coll := by
      split
      · rename_i same
        rw [Process.visit_bit, same]
      · rfl
    rw [sameBit]
    rcases memoized.told known p isTarget with set | ⟨i, membership⟩ | ⟨q, other, listed, isOpen⟩
    · exact .inl set
    · exact .inr (.inl ⟨i, Channels.mem_post.mpr (.inl membership)⟩)
    by_cases visitedNow : q = pid ∧ other = call
    · obtain ⟨rfl, rfl⟩ := visitedNow
      obtain ⟨sameTag, byUser, creates, inRest⟩ := isOpen
      rw [remaining] at inRest
      rcases List.mem_cons.mp inRest with rfl | later
      · by_cases here : p = q
        · exact .inl (here ▸ isSet ⟨sameTag, rfl, creates⟩)
        · refine .inr (.inl ⟨q, Channels.mem_post.mpr (.inr ⟨rfl, ?_, by rw [sameTag]⟩)⟩)
          rw [Process.visit_receivers, if_pos creates, sameTag]
          exact (memoized.visit_receivers uniform next listed sameTag creates).2.2 byUser p here isTarget
      · refine .inr (.inr ⟨q, { other with rest }, ?_, sameTag, byUser, creates, later⟩)
        rw [if_pos rfl, Process.visit_calls]
        exact List.mem_cons_self
    · refine .inr (.inr ⟨q, other, ?_, isOpen⟩)
      split
      · rename_i same
        rw [Process.visit_calls]
        refine List.mem_cons_of_mem _ ((List.mem_erase_of_ne ?_).mpr (same ▸ listed))
        exact fun equal => visitedNow ⟨same, equal⟩
      · exact listed

theorem Memoized.finish (memoized : Memoized tuner tag coll s) {pid : Fin n}
    {call : PutCall k Tag} {onPuts : List (Fin n × Fin m × Tag)}
    (member : call ∈ (s.proc pid).calls) (complete : call.rest = []) :
    Memoized tuner tag coll
      { s.setProc pid { s.proc pid with calls := (s.proc pid).calls.erase call } with
        onPuts := onPuts } := by
  have pendingAfter : Process.pending
      { s.proc pid with calls := (s.proc pid).calls.erase call } tag coll =
        (s.proc pid).pending tag coll := by
    have none : call.pending tag coll = 0 := by
      simp [PutCall.pending, complete]
    unfold Process.pending
    rw [((List.perm_cons_erase member).map _).sum_eq, List.map_cons, List.sum_cons, none,
      Nat.zero_add]
  refine ⟨?_, ?_, ?_, ?_, memoized.sent, ?_, ?_⟩
  · intro p unset
    rw [State.setProc_proc] at unset ⊢
    split at unset
    · rename_i same
      rw [if_pos same, pendingAfter]
      exact memoized.fresh pid unset
    · rename_i different
      rw [if_neg different]
      exact memoized.fresh p unset
  · intro p isTarget set
    rw [State.setProc_proc] at set ⊢
    split at set
    · rename_i same
      subst same
      rw [if_pos rfl, pendingAfter]
      exact memoized.target p isTarget set
    · rename_i different
      rw [if_neg different]
      exact memoized.target p isTarget set
  · intro p notTarget
    rw [State.setProc_proc]
    split
    · rename_i same
      exact same ▸ memoized.elsewhere p notTarget
    · exact memoized.elsewhere p notTarget
  · intro p other membership sameTag creates
    rw [State.setProc_proc] at membership
    split at membership
    · rename_i same
      rw [same]
      exact memoized.meant pid other (List.mem_of_mem_erase membership) sameTag creates
    · exact memoized.meant p other membership sameTag creates
  · rintro (⟨p, set⟩ | sent)
    · rw [State.setProc_proc] at set
      split at set
      · exact memoized.put (.inl ⟨pid, set⟩)
      · exact memoized.put (.inl ⟨p, set⟩)
    · exact memoized.put (.inr sent)
  · intro known p isTarget
    simp only [State.setProc_proc]
    rcases memoized.told known p isTarget with set | sent | ⟨q, other, listed, isOpen⟩
    · refine .inl ?_
      split
      · rename_i same
        exact same ▸ set
      · exact set
    · exact .inr (.inl sent)
    · refine .inr (.inr ⟨q, other, ?_, isOpen⟩)
      split
      · rename_i same
        refine (List.mem_erase_of_ne ?_).mpr (same ▸ listed)
        rintro rfl
        have inRest := isOpen.2.2.2
        rw [complete] at inRest
        cases inRest
      · exact listed

theorem Memoized.step (memoized : Memoized tuner tag coll s) (uniform : Uniform tuner)
    (small : coll.val < 32) {action : Action n k Tag} {next : State n k m Tag}
    (stepped : step tuner s action = some next) : Memoized tuner tag coll next := by
  cases action with
  | put pid other =>
      cases stepped
      apply memoized.insert small
      · exact fun put membership => List.mem_cons_of_mem _ membership
      · intro p membership
        rcases List.mem_cons.mp membership with same | old
        · exact .inr ⟨(Prod.mk.inj same).2, rfl⟩
        · exact .inl ⟨p, old⟩
      · exact fun _ _ membership => membership
      · exact fun _ _ membership => .inl membership
      · rintro rfl -
        exact ⟨⟨pid, List.mem_cons_self⟩, .inl rfl⟩
  | visit pid call next =>
      simp only [CnC.Tag.step] at stepped
      split at stepped
      · cases stepped
      · rename_i visited rest remaining
        simp only [Option.ite_none_right_eq_some, Option.some.injEq] at stepped
        obtain ⟨member, rfl⟩ := stepped
        exact memoized.visit uniform member remaining
  | finish pid call =>
      simp only [CnC.Tag.step, Option.ite_none_right_eq_some, Option.some.injEq] at stepped
      obtain ⟨⟨member, complete⟩, rfl⟩ := stepped
      exact memoized.finish member complete
  | receive source target message =>
      simp only [CnC.Tag.step, Option.ite_none_right_eq_some, Option.some.injEq] at stepped
      obtain ⟨inFlight, rfl⟩ := stepped
      have ours : (stepId message.coll).getLsbD coll = true → tag = message.tag →
          (⟨tag, coll⟩ : Msg k Tag) = message := by
        intro named sameTag
        rw [getLsbD_stepId _ small, decide_eq_true_eq] at named
        rw [sameTag, Fin.ext named]
      apply memoized.insert small
      · exact fun _ membership => membership
      · exact fun p membership => .inl ⟨p, membership⟩
      · intro i j membership
        rcases Channels.mem_setQueue membership with ⟨rfl, rfl, remaining⟩ | old
        · exact List.mem_of_mem_erase remaining
        · exact old
      · intro i j membership
        by_cases taken : (⟨tag, coll⟩ : Msg k Tag) = message ∧ i = source ∧ j = target
        · obtain ⟨rfl, rfl, rfl⟩ := taken
          exact .inr ⟨rfl, rfl, by rw [getLsbD_stepId _ small, decide_eq_true rfl]⟩
        · refine .inl ?_
          by_cases here : i = source ∧ j = target
          · obtain ⟨rfl, rfl⟩ := here
            rw [Channels.setQueue_same]
            exact (List.mem_erase_of_ne fun same => taken ⟨same, rfl, rfl⟩).mpr membership
          · rwa [Channels.setQueue_other _ _ here]
      · intro sameTag named
        have isOurs := ours named sameTag
        rw [← isOurs] at inFlight
        exact ⟨memoized.put (.inr ⟨source, target, inFlight⟩),
          .inr (memoized.sent source target inFlight)⟩

theorem memoized_of_reached (uniform : Uniform tuner) (small : coll.val < 32)
    (reached : Reachable (system tuner) s) : Memoized tuner tag coll s := by
  refine Reached.invariant (Memoized tuner tag coll) ?_ ?_ reached
  · rintro _ rfl
    exact memoized_start
  · intro before action next _ memoized _ stepped
    exact memoized.step uniform small stepped

/-- With at most 31 step collections, no process ever has two instances of a step
collection for a tag, and when all puts have returned and no message is on its
way, every target of a tag which was put has one, and no other process has any. -/
theorem tags_memoized (few : k ≤ 31) (uniform : Uniform tuner)
    (reached : Reachable (system tuner) s) (tag : Tag) (coll : Fin k) (pid : Fin n) :
    (s.proc pid).created.count (tag, coll) ≤ 1 ∧
      (Quiescent s → (∃ putter, (putter, tag) ∈ s.puts) →
        (s.proc pid).created.count (tag, coll) =
          if IsTarget tuner coll tag pid then 1 else 0) := by
  have small : coll.val < 32 := by omega
  have memoized : Memoized tuner tag coll s := memoized_of_reached uniform small reached
  by_cases isTarget : IsTarget tuner coll tag pid
  · cases set : (s.proc pid).bit tag coll with
    | true =>
        have one := memoized.target pid isTarget set
        refine ⟨by omega, fun quiescent _ => ?_⟩
        have none : (s.proc pid).pending tag coll = 0 := by
          rw [Process.pending, quiescent.1 pid, List.map_nil, List.sum_nil]
        rw [if_pos isTarget]
        omega
    | false =>
        refine ⟨by rw [(memoized.fresh pid set).1]; omega, fun quiescent put => ?_⟩
        exfalso
        rcases memoized.told put pid isTarget with isSet | ⟨i, sent⟩ | ⟨other, call, listed, -⟩
        · rw [set] at isSet
          cases isSet
        · rw [quiescent.2 i pid] at sent
          cases sent
        · rw [quiescent.1 other] at listed
          cases listed
  · have none := memoized.elsewhere pid isTarget
    exact ⟨by omega, fun _ _ => by rw [if_neg isTarget, none]⟩

end Invariant

/-- Two processes and two step collections: instances of the first are executed
on process 1, those of the second on both. -/
def twoCollections : Tuner 2 2 Nat where
  computeOn _ coll _ := if coll = 0 then .pid 1 else .all
  distributed := true
  distributed_of_several _ := rfl

/-- Tag 5 is put on both processes at the same time. -/
def putTwice : List (Action 2 2 Nat) :=
  let call : List (Fin 2) → PutCall 2 Nat := fun rest => ⟨5, userMask, 0, rest⟩
  [.put 0 5, .put 1 5,
    .visit 0 (call [0, 1]) 0, .visit 0 (call [1]) 0, .finish 0 (call []),
    .visit 1 (call [0, 1]) 0, .visit 1 (call [1]) 0, .finish 1 (call []),
    .receive 0 1 ⟨5, 0⟩, .receive 0 1 ⟨5, 1⟩, .receive 1 0 ⟨5, 1⟩]

theorem uniform_twoCollections : Uniform twoCollections := by
  intro coll tag
  by_cases first : coll = 0
  · exact .inl ⟨1, fun self => by simp [twoCollections, first]⟩
  · exact .inr fun self => by simp [twoCollections, first]

theorem tags_memoized_putTwice :
    ∃ s : State 2 2 1 Nat,
      (system twoCollections).run (fun _ _ => True) (start 2 2 1 Nat) putTwice = some s ∧
        Quiescent s ∧ (0, 5) ∈ s.puts ∧
        (s.proc 1).created.count (5, 0) = 1 ∧ (s.proc 0).created.count (5, 0) = 0 := by
  refine ⟨_, rfl, by decide, by decide, ?_, ?_⟩
  · exact (tags_memoized (by decide) uniform_twoCollections
      (Reached.run (.initial rfl) putTwice rfl) 5 0 1).2 (by decide) ⟨0, by decide⟩
  · exact (tags_memoized (by decide) uniform_twoCollections
      (Reached.run (.initial rfl) putTwice rfl) 5 0 0).2 (by decide) ⟨0, by decide⟩

end CnC.Tag
