import CnC.Scheduler.ComputeOn

/-!
# Round robin

The variable `s_currP` of a thread is a 32-bit `int` which is incremented for every answer that
is not a process, and the target is its remainder.  The increment wraps around.
-/

namespace CnC.Scheduler.RoundRobin

variable {n : Nat}

/-- The answer of `compute_on` is neither a process nor one of the values with a meaning of their
own. -/
def fallsBack (self : Fin n) (pot : Int) : Bool :=
  decide (pot ≠ computeOnLocal ∧ pot ≠ self.val ∧ pot ≠ computeOnAll ∧ pot ≠ computeOnAllOthers ∧
    (pot < 0 ∨ pot ≥ n))

def targets (self : Fin n) : List Int → BitVec 32 → List Int
  | [], _ => []
  | pot :: pots, currP =>
      let called := getTargetPid self pot currP
      if fallsBack self pot then called.1 :: targets self pots called.2
      else targets self pots called.2

/-- Only processes are targets, and `n` targets in a row are all processes. -/
structure Fair (n : Nat) (targets : List Int) : Prop where
  valid : ∀ target ∈ targets, 0 ≤ target ∧ target < n
  each : ∀ k, k + n ≤ targets.length → ∀ pid : Fin n,
    ((targets.drop k).take n).count (pid.val : Int) = 1

theorem ofNat_succ (m : Nat) : BitVec.ofNat 32 m + 1 = BitVec.ofNat 32 (m + 1) :=
  (BitVec.ofNat_add m 1).symm

theorem toInt_ofNat {m : Nat} (small : m < 2 ^ 31) : (BitVec.ofNat 32 m).toInt = m := by
  have isNat : (BitVec.ofNat 32 m).toNat = m := by
    rw [BitVec.toNat_ofNat]
    exact Nat.mod_eq_of_lt (by omega)
  rw [BitVec.toInt_eq_toNat_of_lt (by omega), isNat]

theorem getTargetPid_of_fallsBack {self : Fin n} {pot : Int} (falls : fallsBack self pot = true)
    (currP : BitVec 32) : getTargetPid self pot currP = roundRobinNext n currP := by
  obtain ⟨notLocal, notSelf, notAll, notOthers, outside⟩ := of_decide_eq_true falls
  rw [getTargetPid, if_pos ⟨notLocal, notSelf, notAll, notOthers⟩, if_pos outside]

theorem getTargetPid_snd {self : Fin n} {pot : Int} (stays : fallsBack self pot = false)
    (currP : BitVec 32) : (getTargetPid self pot currP).2 = currP := by
  have meaning := of_decide_eq_false stays
  rw [getTargetPid]
  split
  · rename_i special
    rw [if_neg fun outside =>
      meaning ⟨special.1, special.2.1, special.2.2.1, special.2.2.2, outside⟩]
  · split <;> rfl

/-- The target of the call with the given number. -/
def target (n start k : Nat) : Int :=
  (BitVec.ofNat 32 (start + k + 1)).toInt.tmod n

theorem targets_eq (self : Fin n) (pots : List Int) (start : Nat) :
    targets self pots (BitVec.ofNat 32 start) =
      (List.range (pots.countP (fallsBack self))).map (target n start) := by
  induction pots generalizing start with
  | nil => rfl
  | cons pot pots inductionHypothesis =>
      rw [targets]
      cases falls : fallsBack self pot with
      | true =>
          rw [getTargetPid_of_fallsBack falls, roundRobinNext, ofNat_succ, if_pos rfl,
            inductionHypothesis, List.countP_cons_of_pos falls, List.range_succ_eq_map,
            List.map_cons, List.map_map]
          congr 1
          refine List.map_congr_left fun k _ => ?_
          simp only [target, Function.comp_apply]
          congr 3
          omega
      | false =>
          rw [getTargetPid_snd falls, if_neg Bool.false_ne_true, inductionHypothesis,
            List.countP_cons_of_neg (by simp [falls])]

theorem target_of_lt {start k : Nat} (small : start + k + 1 < 2 ^ 31) :
    target n start k = ((start + k + 1) % n : Nat) := by
  rw [target, toInt_ofNat small]
  exact (Int.ofNat_tmod _ _).symm

theorem target_wrapped {start k : Nat} (i : Nat) (isFirst : i < 2)
    (wrapped : start + k + 1 = 2 ^ 31 + i) :
    target n start k = -((2 ^ 31 - i) % n : Nat) := by
  have isNegative : (BitVec.ofNat 32 (start + k + 1)).toInt = -((2 ^ 31 - i : Nat) : Int) := by
    rw [wrapped]
    interval_cases i <;> rfl
  rw [target, isNegative, Int.neg_tmod, Int.natCast_mod]
  rfl

theorem fair_of_residues (start count : Nat) (pos : 0 < n)
    (residues : ∀ k < count, target n start k = ((start + k + 1) % n : Nat)) :
    Fair n ((List.range count).map (target n start)) := by
  refine ⟨fun value isTarget => ?_, fun k bound pid => ?_⟩
  · obtain ⟨k, inside, rfl⟩ := List.mem_map.mp isTarget
    rw [residues k (List.mem_range.mp inside)]
    have := Nat.mod_lt (start + k + 1) pos
    omega
  · rw [List.length_map, List.length_range] at bound
    have window : (((List.range count).map (target n start)).drop k).take n =
        (List.range n).map fun j => (((start + k + 1 + j) % n : Nat) : Int) := by
      refine List.ext_getElem (by simp; omega) fun j inside _ => ?_
      simp only [List.length_take, List.length_drop, List.length_map, List.length_range] at inside
      simp only [List.getElem_take, List.getElem_drop, List.getElem_map, List.getElem_range]
      rw [residues (k + j) (by omega)]
      congr 2
      omega
    have injective : Function.Injective fun j : Fin n =>
        (⟨(start + k + 1 + j.val) % n, Nat.mod_lt _ pos⟩ : Fin n) := by
      intro j j' same
      have congruent : start + k + 1 + j.val ≡ start + k + 1 + j'.val [MOD n] :=
        congrArg Fin.val same
      exact Fin.ext
        (Nat.ModEq.eq_of_lt_of_lt (Nat.ModEq.add_left_cancel' _ congruent) j.isLt j'.isLt)
    obtain ⟨j, isPid⟩ := Finite.injective_iff_surjective.mp injective pid
    rw [window]
    refine List.count_eq_one_of_mem ?_ (List.mem_map.mpr ⟨j, List.mem_range.mpr j.isLt, ?_⟩)
    · refine List.Nodup.map_on (fun i inside i' inside' same => ?_) List.nodup_range
      have := @injective ⟨i, List.mem_range.mp inside⟩ ⟨i', List.mem_range.mp inside'⟩
        (Fin.ext (Int.ofNat.inj same))
      exact congrArg Fin.val this
    · exact congrArg (fun value : Fin n => (value.val : Int)) isPid

/-- The targets of a thread are valid and fair as long as its variable does not become negative.
The first negative value does no harm if the number of processes is a power of two. -/
theorem round_robin_fair_iff (self : Fin n) (pots : List Int) (fits : n < 2 ^ 31) :
    Fair n (targets self pots (BitVec.ofNat 32 self.val)) ↔
      n = 1 ∨ self.val + pots.countP (fallsBack self) < 2 ^ 31 ∨
        n ∣ 2 ^ 31 ∧ self.val + pots.countP (fallsBack self) = 2 ^ 31 := by
  have pos := self.pos
  have below := self.isLt
  rw [targets_eq]
  generalize pots.countP (fallsBack self) = count
  constructor
  · intro fair
    by_contra neither
    obtain ⟨several, wraps, notLast⟩ : n ≠ 1 ∧ 2 ^ 31 ≤ self.val + count ∧
        ¬ (n ∣ 2 ^ 31 ∧ self.val + count = 2 ^ 31) := by
      refine ⟨fun isOne => neither (.inl isOne), ?_, fun last => neither (.inr (.inr last))⟩
      exact Nat.le_of_not_lt fun small => neither (.inr (.inl small))
    have divides (i : Nat) (isFirst : i < 2) (reached : 2 ^ 31 + i ≤ self.val + count) :
        n ∣ 2 ^ 31 - i := by
      have isTarget : target n self.val (2 ^ 31 + i - 1 - self.val) ∈
          (List.range count).map (target n self.val) :=
        List.mem_map_of_mem (List.mem_range.mpr (by omega))
      have valid := (fair.valid _ isTarget).1
      rw [target_wrapped i isFirst (by omega)] at valid
      refine Nat.dvd_of_mod_eq_zero ?_
      generalize (2 ^ 31 - i) % n = remainder at valid ⊢
      omega
    have first := divides 0 (by omega) (by omega)
    have more : self.val + count ≠ 2 ^ 31 := fun last => notLast ⟨first, last⟩
    have second := divides 1 (by omega) (by omega)
    have isOne : n ∣ 2 ^ 31 - (2 ^ 31 - 1) := Nat.dvd_sub first second
    exact several (Nat.dvd_one.mp isOne)
  · intro condition
    rcases condition with isOne | small | ⟨divides, last⟩
    · subst isOne
      refine fair_of_residues self.val count pos fun k _ => ?_
      rw [target, Nat.mod_one]
      exact Int.tmod_one _
    · exact fair_of_residues self.val count pos fun k inside => target_of_lt (by omega)
    · refine fair_of_residues self.val count pos fun k inside => ?_
      by_cases isLast : k + 1 = count
      · rw [target_wrapped 0 (by omega) (by omega)]
        have zero : (2 ^ 31 : Nat) % n = 0 := Nat.mod_eq_zero_of_dvd divides
        rw [show self.val + k + 1 = 2 ^ 31 by omega, Nat.sub_zero, zero]
        rfl
      · exact target_of_lt (by omega)

theorem round_robin_fair_three : Fair 3 (targets (1 : Fin 3) [-3, 0, 7] (BitVec.ofNat 32 1)) :=
  (round_robin_fair_iff (1 : Fin 3) [-3, 0, 7] (by decide)).mpr (.inr (.inl (by decide)))

/-- On three processes the answer after 2^31 calls is -2. -/
theorem round_robin_fails :
    ¬ ∀ pots : List Int, Fair 3 (targets (0 : Fin 3) pots (BitVec.ofNat 32 0)) := by
  intro fair
  have isTarget : target 3 0 (2 ^ 31 - 1) ∈
      targets (0 : Fin 3) (List.replicate (2 ^ 31) computeOnRoundRobin) (BitVec.ofNat 32 0) := by
    rw [targets_eq, List.countP_replicate, if_pos (by decide)]
    exact List.mem_map_of_mem (List.mem_range.mpr (by decide))
  have valid := ((fair _).valid _ isTarget).1
  rw [target_wrapped 0 (by decide) (by decide)] at valid
  exact absurd valid (by decide)

end CnC.Scheduler.RoundRobin
