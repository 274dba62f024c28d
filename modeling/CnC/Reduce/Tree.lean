import CnC.Library.Convergecast
import CnC.Reduce.Reduction

/-!
# The tree of an owner

The receivers of `bcast` and the parents of `my_parent_for_root` belong to one binary tree of all
processes, of which the owner is the root.
-/

namespace CnC.Reduce

open Convergecast Transition

variable {n : Nat} {root p q : Fin n}

theorem position_eq (root p : Fin n) :
    position root p = if root.val ≤ p.val then p.val - root.val else p.val + n - root.val :=
  rfl

theorem position_lt (root p : Fin n) : position root p < n := by
  rw [position_eq]
  split <;> omega

theorem position_eq_zero : position root p = 0 ↔ p = root := by
  rw [position_eq, Fin.ext_iff]
  split <;> omega

theorem atPosition_position (root p : Fin n) : atPosition root (position root p) = p := by
  apply Fin.ext
  change (root.val + position root p) % n = p.val
  rw [position_eq]
  split
  · rw [show root.val + (p.val - root.val) = p.val by omega, Nat.mod_eq_of_lt p.isLt]
  · rw [show root.val + (p.val + n - root.val) = p.val + n by omega, Nat.add_mod_right,
      Nat.mod_eq_of_lt p.isLt]

theorem position_atPosition {r : Nat} (bound : r < n) : position root (atPosition root r) = r := by
  have value : (atPosition root r).val = (root.val + r) % n := rfl
  rw [position_eq, value]
  by_cases wraps : root.val + r < n
  · rw [Nat.mod_eq_of_lt wraps, if_pos (by omega)]
    omega
  · have isMod : (root.val + r) % n = root.val + r - n := by
      rw [Nat.mod_eq_sub_mod (by omega), Nat.mod_eq_of_lt (by omega)]
    rw [isMod, if_neg (by omega)]
    omega

theorem atPosition_inj {r r' : Nat} (bound : r < n) (bound' : r' < n) :
    atPosition root r = atPosition root r' ↔ r = r' := by
  refine ⟨fun same => ?_, fun same => same ▸ rfl⟩
  rw [← position_atPosition bound, same, position_atPosition bound']

theorem position_parent (root q : Fin n) :
    position root (myParentForRoot root q) = (position root q - 1) / 2 := by
  have bound := position_lt root q
  exact position_atPosition (by omega)

theorem bcast_eq (root p : Fin n) :
    bcast root p =
      if (position root p + 1) * 2 - 1 < n then
        if (position root p + 1) * 2 - 1 < n - 1 then
          [atPosition root ((position root p + 1) * 2 - 1),
            atPosition root ((position root p + 1) * 2 - 1 + 1)]
        else [atPosition root ((position root p + 1) * 2 - 1)]
      else [] :=
  rfl

theorem mem_bcast_iff_position : q ∈ bcast root p ↔
    position root q = 2 * position root p + 1 ∨ position root q = 2 * position root p + 2 := by
  have bound := position_lt root q
  have at_ (r : Nat) (less : r < n) : q = atPosition root r ↔ position root q = r := by
    rw [← atPosition_position root q, atPosition_inj bound less, atPosition_position]
  rw [bcast_eq]
  split
  · split
    · rw [List.mem_cons, List.mem_singleton, at_ _ (by omega), at_ _ (by omega)]
      omega
    · rw [List.mem_singleton, at_ _ (by omega)]
      omega
  · simp only [List.not_mem_nil, false_iff]
    omega

theorem mem_bcast : q ∈ bcast root p ↔ q ≠ root ∧ myParentForRoot root q = p := by
  rw [mem_bcast_iff_position]
  constructor
  · intro below
    have notRoot : q ≠ root := by
      intro isRoot
      rw [position_eq_zero.mpr isRoot] at below
      omega
    refine ⟨notRoot, ?_⟩
    rw [← atPosition_position root p, myParentForRoot]
    congr 1
    omega
  · rintro ⟨notRoot, rfl⟩
    have positive : position root q ≠ 0 := fun zero => notRoot (position_eq_zero.mp zero)
    rw [position_parent]
    omega

theorem nodup_bcast (root p : Fin n) : (bcast root p).Nodup := by
  rw [bcast_eq]
  split
  · split
    · rw [List.nodup_cons, List.mem_singleton, atPosition_inj (by omega) (by omega)]
      exact ⟨by omega, List.nodup_singleton _⟩
    · exact List.nodup_singleton _
  · exact List.nodup_nil

/-- The tree in which messages of the owner travel. -/
def tree (root : Fin n) : RootedTree (Fin n) where
  root := root
  parent := myParentForRoot root
  children p := (bcast root p).toFinset
  mem_children p q := by
    rw [List.mem_toFinset]
    exact mem_bcast
  depth := position root
  depth_parent q notRoot := by
    have positive : position root q ≠ 0 := fun zero => notRoot (position_eq_zero.mp zero)
    rw [position_parent]
    omega

/-- `bcast`: the receivers of the message, and the value which is returned.  The second receiver
is computed from the first. -/
def bcastMsg (root mpid : Fin n) : List (Fin n) × Nat :=
  let r1 := (position root mpid + 1) * 2 - 1
  if r1 < n then
    if r1 < n - 1 then
      let r1 := atPosition root r1
      ([r1, ⟨(r1.val + 1) % n, Nat.mod_lt _ root.pos⟩], 2)
    else ([atPosition root r1], 1)
  else ([], 0)

theorem atPosition_succ (root : Fin n) (r : Nat) :
    (⟨((atPosition root r).val + 1) % n, Nat.mod_lt _ root.pos⟩ : Fin n) =
      atPosition root (r + 1) := by
  apply Fin.ext
  change ((root.val + r) % n + 1) % n = (root.val + (r + 1)) % n
  rw [Nat.mod_add_mod, Nat.add_assoc]

theorem bcastMsg_eq (root p : Fin n) : bcastMsg root p = (bcast root p, (bcast root p).length) := by
  have unfolded : bcastMsg root p =
      if (position root p + 1) * 2 - 1 < n then
        if (position root p + 1) * 2 - 1 < n - 1 then
          ([atPosition root ((position root p + 1) * 2 - 1),
            ⟨((atPosition root ((position root p + 1) * 2 - 1)).val + 1) % n,
              Nat.mod_lt _ root.pos⟩], 2)
        else ([atPosition root ((position root p + 1) * 2 - 1)], 1)
      else ([], 0) := rfl
  rw [unfolded, bcast_eq, atPosition_succ]
  split
  · split <;> rfl
  · rfl

theorem card_children (root p : Fin n) :
    (bcastMsg root p).2 =
      (Finset.univ.filter fun q => q ≠ root ∧ myParentForRoot root q = p).card := by
  have same : (Finset.univ.filter fun q => q ≠ root ∧ myParentForRoot root q = p) =
      (bcast root p).toFinset := by
    ext q
    rw [Finset.mem_filter, List.mem_toFinset, mem_bcast]
    exact and_iff_right (Finset.mem_univ q)
  rw [bcastMsg_eq, same, List.toFinset_card_of_nodup (nodup_bcast root p)]

/-- A message which every process forwards: the processes to which it is on its way, and how
often it has been received. -/
structure Forwarding (n : Nat) where
  inFlight : List (Fin n)
  received : Fin n → Nat

def forwarding (root : Fin n) : System (Forwarding n) (Fin n) where
  Initial s := s = ⟨(bcastMsg root root).1, fun _ => 0⟩
  step s q :=
    if q ∈ s.inFlight then
      some ⟨s.inFlight.erase q ++ (bcastMsg root q).1,
        Function.update s.received q (s.received q + 1)⟩
    else none

variable {s next : Forwarding n}

/-- Every process which has received the message has passed it on. -/
def Forwarding.wave (root : Fin n) (s : Forwarding n) : Wave (Fin n) where
  heard p := decide (p = root ∨ 0 < s.received p)
  sent p := decide (p = root ∨ 0 < s.received p)
  replied _ := false
  collected _ := ∅

structure Forwarded (root : Fin n) (s : Forwarding n) : Prop where
  sound : Sound (tree root) (s.wave root) (fun q => s.inFlight.count q) fun _ => 0
  once : ∀ q, s.received q ≤ 1
  notBack : s.received root = 0 ∧ root ∉ s.inFlight

theorem root_notMem_bcast (root p : Fin n) : root ∉ bcast root p :=
  fun isReceiver => (mem_bcast.mp isReceiver).1 rfl

theorem count_bcast (root p q : Fin n) :
    (bcast root p).count q = if q ∈ (tree root).children p then 1 else 0 := by
  have isChild : q ∈ (tree root).children p ↔ q ∈ bcast root p := List.mem_toFinset
  rw [(nodup_bcast root p).count]
  simp only [isChild]

theorem forwarded_start (root : Fin n) :
    Forwarded root ⟨(bcastMsg root root).1, fun _ => 0⟩ := by
  rw [bcastMsg_eq]
  refine ⟨⟨fun q notRoot => ?_, fun _ _ => rfl, fun _ sent => sent, fun _ replied => (nomatch replied),
    fun _ => Finset.empty_subset _⟩, fun _ => Nat.zero_le 1, rfl, root_notMem_bcast root root⟩
  have isChild : q ∈ (tree root).children root ↔ (tree root).parent q = root := by
    rw [(tree root).mem_children]
    exact and_iff_right notRoot
  have notHeard : (Forwarding.wave root ⟨bcast root root, fun _ => 0⟩).heard q = false :=
    decide_eq_false fun heard => heard.elim notRoot (Nat.lt_irrefl 0)
  have sent : (Forwarding.wave root ⟨bcast root root, fun _ => 0⟩).sent ((tree root).parent q) =
      decide ((tree root).parent q = root) := by
    simp [Forwarding.wave]
  simp only [count_bcast, isChild, notHeard, sent]
  by_cases isParent : (tree root).parent q = root <;> simp [isParent]

theorem wave_receive (root q : Fin n) (s : Forwarding n) (inFlight : List (Fin n)) :
    Forwarding.wave root ⟨inFlight, Function.update s.received q (s.received q + 1)⟩ =
      { s.wave root with
        heard := Function.update (s.wave root).heard q true
        sent := Function.update (s.wave root).sent q true } := by
  have reached : (fun p => decide (p = root ∨
      0 < Function.update s.received q (s.received q + 1) p)) =
      Function.update (fun p => decide (p = root ∨ 0 < s.received p)) q true := by
    funext p
    by_cases same : p = q
    · subst same
      simp
    · simp [same]
  simp only [Forwarding.wave, reached]

theorem Forwarded.unreceived (forwarded : Forwarded root s) {q : Fin n}
    (isTarget : q ∈ s.inFlight) : q ≠ root ∧ s.received q = 0 := by
  have notRoot : q ≠ root := by
    rintro rfl
    exact forwarded.notBack.2 isTarget
  obtain ⟨notHeard, -, -⟩ := forwarded.sound.of_down notRoot (List.count_pos_iff.mpr isTarget)
  have := of_decide_eq_false notHeard
  exact ⟨notRoot, by omega⟩

theorem Forwarded.receive (forwarded : Forwarded root s) {q : Fin n} (isTarget : q ∈ s.inFlight) :
    Forwarded root ⟨s.inFlight.erase q ++ (bcastMsg root q).1,
      Function.update s.received q (s.received q + 1)⟩ := by
  obtain ⟨notRoot, notYet⟩ := forwarded.unreceived isTarget
  have pending : 0 < s.inFlight.count q := List.count_pos_iff.mpr isTarget
  have notHeard := (forwarded.sound.of_down notRoot pending).1
  rw [bcastMsg_eq]
  refine ⟨?_, fun p => ?_, ?_, fun isMember => ?_⟩
  · rw [wave_receive]
    have heard : Sound (tree root)
        { s.wave root with heard := Function.update (s.wave root).heard q true }
        (fun r => (s.inFlight.erase q).count r) fun _ => 0 := by
      refine forwarded.sound.hear notRoot ?_ fun r different _ => List.count_erase_of_ne different
      rw [List.count_erase_self]
      omega
    refine heard.forward (by simp) notHeard fun r _ => ?_
    rw [List.count_append, count_bcast]
  · by_cases same : p = q
    · subst same
      simp [notYet]
    · simpa [same] using forwarded.once p
  · change Function.update s.received q _ root = 0
    rw [Function.update_of_ne notRoot.symm]
    exact forwarded.notBack.1
  · rcases List.mem_append.mp isMember with old | new
    · exact forwarded.notBack.2 (List.mem_of_mem_erase old)
    · exact root_notMem_bcast root q new

theorem forwarded_of_reachable (reached : Reachable (forwarding root) s) : Forwarded root s := by
  refine reached.invariant (Forwarded root) ?_ ?_
  · rintro state rfl
    exact forwarded_start root
  · intro state q next _ forwarded _ stepped
    simp only [forwarding] at stepped
    split at stepped
    · rename_i isTarget
      cases stepped
      exact forwarded.receive isTarget
    · cases stepped

theorem Forwarded.all (forwarded : Forwarded root s) (nothing : s.inFlight = []) {q : Fin n}
    (notRoot : q ≠ root) : s.received q = 1 := by
  have heard := (forwarded.sound.heard_all (by simp [Forwarding.wave, tree])
    (fun r _ => by rw [nothing]; exact List.count_nil) (fun r _ heard _ => heard) q).1
  have once := forwarded.once q
  have reached := (of_decide_eq_true heard).resolve_left notRoot
  omega

theorem exists_delivered (reached : Reachable (forwarding root) s) :
    ∃ targets last, (forwarding root).run (fun _ _ => True) s targets = some last ∧
      last.inFlight = [] := by
  induction isWaiting : (Finset.univ.filter fun q => s.received q = 0).card using
    Nat.strong_induction_on generalizing s with
  | _ waiting inductionHypothesis =>
      cases flying : s.inFlight with
      | nil => exact ⟨[], s, rfl, flying⟩
      | cons q rest =>
          have isTarget : q ∈ s.inFlight := by
            rw [flying]
            exact List.mem_cons_self
          have stepped : (forwarding root).step s q = some ⟨s.inFlight.erase q ++ (bcastMsg root q).1,
              Function.update s.received q (s.received q + 1)⟩ := if_pos isTarget
          have fewer : (Finset.univ.filter fun p =>
              Function.update s.received q (s.received q + 1) p = 0).card < waiting := by
            rw [← isWaiting]
            have notYet := ((forwarded_of_reachable reached).unreceived isTarget).2
            refine Finset.card_lt_card ((Finset.ssubset_iff_of_subset fun p => ?_).mpr
              ⟨q, by simp [notYet], by simp⟩)
            simp only [Finset.mem_filter, Finset.mem_univ, true_and]
            by_cases same : p = q
            · subst same
              simp
            · simp [same]
          obtain ⟨targets, last, delivered, nothing⟩ :=
            inductionHypothesis _ fewer (reached.step trivial stepped) rfl
          refine ⟨q :: targets, last, ?_, nothing⟩
          rw [System.run, if_pos trivial, stepped]
          exact delivered

theorem exists_parents (root p : Fin n) :
    ∃ k, (myParentForRoot root)^[k] p = root ∧
      ∀ j < k, (myParentForRoot root)^[j] p ≠ root := by
  induction isDepth : position root p using Nat.strong_induction_on generalizing p with
  | _ depth inductionHypothesis =>
      by_cases isRoot : p = root
      · exact ⟨0, isRoot, fun j below => absurd below (Nat.not_lt_zero j)⟩
      · have shallower : position root (myParentForRoot root p) < depth :=
          lt_of_lt_of_eq ((tree root).depth_parent p isRoot) isDepth
        obtain ⟨k, isParent, before⟩ := inductionHypothesis _ shallower _ rfl
        refine ⟨k + 1, isParent, fun j below => ?_⟩
        cases j with
        | zero => exact isRoot
        | succ j => exact before j (Nat.lt_of_succ_lt_succ below)

/-- The receivers of `bcast` and the parents of `my_parent_for_root` make up a spanning tree. -/
theorem bcast_spanning_tree (n : Nat) (root : Fin n) :
    (∀ p q, q ∈ (bcastMsg root p).1 ↔ q ≠ root ∧ myParentForRoot root q = p) ∧
      (∀ p, (bcastMsg root p).2 =
        (Finset.univ.filter fun q => q ≠ root ∧ myParentForRoot root q = p).card) ∧
      (∀ s, Reachable (forwarding root) s →
        (∀ q, s.received q ≤ 1) ∧ s.received root = 0 ∧
          (s.inFlight = [] → ∀ q, q ≠ root → s.received q = 1) ∧
          ∃ targets last, (forwarding root).run (fun _ _ => True) s targets = some last ∧
            last.inFlight = []) ∧
      ∀ p, ∃ k, (myParentForRoot root)^[k] p = root ∧
        ∀ j < k, (myParentForRoot root)^[j] p ≠ root := by
  refine ⟨fun p q => ?_, card_children root, fun s reached => ?_, exists_parents root⟩
  · rw [bcastMsg_eq]
    exact mem_bcast
  · have forwarded := forwarded_of_reachable reached
    exact ⟨forwarded.once, forwarded.notBack.1, fun nothing q => forwarded.all nothing,
      exists_delivered reached⟩

end CnC.Reduce
