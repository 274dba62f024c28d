import Mathlib.Algebra.BigOperators.Group.Finset.Basic
import Mathlib.Data.Finset.Card
import Mathlib.Data.Finset.Max
import Mathlib.Data.Fintype.Defs
import Mathlib.Tactic.Common

/-!
# Broadcast and convergecast

A message travels from the root of a tree to all nodes, and every node which has
received the replies of its children sends a reply to its parent.  `Wave` says
what each node has done, and `Sound` relates it to the numbers of messages which
are on their way.  `Sound.complete` is the completion rule: when no message is on
its way, and no node could send a reply, all nodes have been reached and all
replies have been collected.  `RootedTree.prod_own` is the aggregation rule: when
every node multiplies its own value with those of its children, the value of the
root is the product over all nodes.
-/

namespace Convergecast

variable {Node : Type*} [DecidableEq Node]

structure RootedTree (Node : Type*) where
  root : Node
  parent : Node → Node
  children : Node → Finset Node
  mem_children : ∀ p q, q ∈ children p ↔ q ≠ root ∧ parent q = p
  depth : Node → Nat
  depth_parent : ∀ q, q ≠ root → depth (parent q) < depth q

namespace RootedTree

variable (tree : RootedTree Node) [Fintype Node] {Value : Type*} [CommMonoid Value]
  (own value : Node → Value)

/-- The own values of the nodes above depth `k`, and the values of the subtrees below them. -/
def front (k : Nat) : Value :=
  ∏ q, if tree.depth q < k then own q
    else if q = tree.root ∨ tree.depth (tree.parent q) < k then value q else 1

theorem prod_children (k : Nat) :
    ∏ q, (if tree.depth q = k then ∏ child ∈ tree.children q, value child else 1) =
      ∏ q, if q ≠ tree.root ∧ tree.depth (tree.parent q) = k then value q else 1 := by
  rw [← Finset.prod_filter, ← Finset.prod_filter]
  have ofParent (q : Node) (isAt : tree.depth q = k) : tree.children q =
      (Finset.univ.filter fun child =>
        child ≠ tree.root ∧ tree.depth (tree.parent child) = k).filter fun child =>
          tree.parent child = q := by
    ext child
    simp only [tree.mem_children, Finset.mem_filter, Finset.mem_univ, true_and]
    refine ⟨?_, fun isChild => ⟨isChild.1.1, isChild.2⟩⟩
    rintro ⟨notRoot, rfl⟩
    exact ⟨⟨notRoot, isAt⟩, rfl⟩
  have isPlaced : ∀ child ∈ Finset.univ.filter (fun child =>
      child ≠ tree.root ∧ tree.depth (tree.parent child) = k),
      tree.parent child ∈ Finset.univ.filter fun q => tree.depth q = k :=
    fun child isChild =>
      Finset.mem_filter.mpr ⟨Finset.mem_univ _, (Finset.mem_filter.mp isChild).2.2⟩
  rw [← Finset.prod_fiberwise_of_maps_to isPlaced]
  exact Finset.prod_congr rfl fun q isAt => by rw [ofParent q (Finset.mem_filter.mp isAt).2]

variable (multiplies : ∀ q, value q = own q * ∏ child ∈ tree.children q, value child)

include multiplies

theorem front_succ (k : Nat) : tree.front own value (k + 1) = tree.front own value k := by
  have upper (q : Node) : (if tree.depth q < k then own q
        else if q = tree.root ∨ tree.depth (tree.parent q) < k then value q else 1) =
      (if tree.depth q < k + 1 then own q
        else if q = tree.root ∨ tree.depth (tree.parent q) < k then value q else 1) *
      if tree.depth q = k then ∏ child ∈ tree.children q, value child else 1 := by
    rcases Nat.lt_trichotomy (tree.depth q) k with above | here | below
    · rw [if_pos above, if_pos (by omega), if_neg above.ne, mul_one]
    · have isFront : q = tree.root ∨ tree.depth (tree.parent q) < k :=
        or_iff_not_imp_left.mpr fun notRoot => here ▸ tree.depth_parent q notRoot
      rw [if_neg here.ge.not_gt, if_pos isFront, if_pos (by omega), if_pos here, multiplies q]
    · have notAbove : ¬ tree.depth q < k + 1 := by omega
      rw [if_neg below.not_gt, if_neg notAbove, if_neg below.ne', mul_one]
  have lower (q : Node) : (if tree.depth q < k + 1 then own q
        else if q = tree.root ∨ tree.depth (tree.parent q) < k + 1 then value q else 1) =
      (if tree.depth q < k + 1 then own q
        else if q = tree.root ∨ tree.depth (tree.parent q) < k then value q else 1) *
      if q ≠ tree.root ∧ tree.depth (tree.parent q) = k then value q else 1 := by
    by_cases isRoot : q = tree.root
    · simp [isRoot]
    · have deeper := tree.depth_parent q isRoot
      by_cases above : tree.depth q < k + 1
      · have notAt : ¬ (q ≠ tree.root ∧ tree.depth (tree.parent q) = k) := by omega
        rw [if_pos above, if_pos above, if_neg notAt, mul_one]
      · rw [if_neg above, if_neg above]
        simp only [isRoot, false_or, ne_eq, not_false_eq_true, true_and]
        rcases Nat.lt_trichotomy (tree.depth (tree.parent q)) k with before | at_ | after
        · rw [if_pos (before.trans k.lt_succ_self), if_pos before, if_neg before.ne, mul_one]
        · rw [if_pos (at_.trans_lt k.lt_succ_self), if_neg at_.ge.not_gt, if_pos at_, one_mul]
        · rw [if_neg (Nat.succ_le_of_lt after).not_gt, if_neg after.not_gt, if_neg after.ne',
            mul_one]
  rw [front, front, Finset.prod_congr rfl fun q _ => lower q,
    Finset.prod_congr rfl fun q _ => upper q, Finset.prod_mul_distrib, Finset.prod_mul_distrib,
    tree.prod_children]

/-- The value of the root is the product of the own values of all nodes. -/
theorem prod_own : value tree.root = ∏ q, own q := by
  have same (k : Nat) : tree.front own value k = tree.front own value 0 := by
    induction k with
    | zero => rfl
    | succ k inductionHypothesis => rw [tree.front_succ own value multiplies, inductionHypothesis]
  have first : tree.front own value 0 = value tree.root := by
    rw [front, Finset.prod_eq_single tree.root]
    · simp
    · intro q _ notRoot
      simp [notRoot]
    · exact fun absent => absurd (Finset.mem_univ _) absent
  have last : tree.front own value (Finset.univ.sup tree.depth + 1) = ∏ q, own q :=
    Finset.prod_congr rfl fun q _ =>
      if_pos (Nat.lt_succ_of_le (Finset.le_sup (Finset.mem_univ q)))
  rw [← first, ← same, last]

end RootedTree

/-- Which nodes have received the message, passed it on, and replied, and whose
replies they have collected. -/
structure Wave (Node : Type*) where
  heard : Node → Bool
  sent : Node → Bool
  replied : Node → Bool
  collected : Node → Finset Node

/-- `down` and `up` count the messages on their way to and from a node. -/
structure Sound (tree : RootedTree Node) (wave : Wave Node) (down up : Node → Nat) : Prop where
  down : ∀ q, q ≠ tree.root →
    down q + (wave.heard q).toNat = (wave.sent (tree.parent q)).toNat
  up : ∀ q, q ≠ tree.root →
    up q + (if q ∈ wave.collected (tree.parent q) then 1 else 0) = (wave.replied q).toNat
  sent : ∀ p, wave.sent p → wave.heard p
  replied : ∀ q, wave.replied q → q ≠ tree.root ∧ wave.sent q ∧
    wave.collected q = tree.children q
  collected : ∀ p, wave.collected p ⊆ tree.children p

variable {tree : RootedTree Node} {wave : Wave Node} {down up : Node → Nat}

namespace Sound

theorem of_down (sound : Sound tree wave down up) {q : Node} (notRoot : q ≠ tree.root)
    (pending : 0 < down q) : wave.heard q = false ∧ wave.sent (tree.parent q) = true ∧ down q = 1 := by
  have equation := sound.down q notRoot
  cases heard : wave.heard q <;> cases sent : wave.sent (tree.parent q) <;>
    simp only [heard, sent, Bool.toNat_true, Bool.toNat_false] at equation <;>
    first
      | omega
      | exact ⟨rfl, rfl, by omega⟩

theorem of_up (sound : Sound tree wave down up) {q : Node} (notRoot : q ≠ tree.root)
    (pending : 0 < up q) :
    wave.replied q = true ∧ q ∉ wave.collected (tree.parent q) ∧ up q = 1 := by
  have equation := sound.up q notRoot
  cases replied : wave.replied q <;> by_cases collected : q ∈ wave.collected (tree.parent q) <;>
    simp only [replied, collected, if_true, if_false, Bool.toNat_true, Bool.toNat_false]
      at equation <;>
    first
      | omega
      | exact ⟨rfl, collected, by omega⟩

theorem start (sound : Sound tree wave down up) :
    Sound tree { wave with heard := Function.update wave.heard tree.root true } down up where
  down q notRoot := by
    simpa [Function.update_of_ne notRoot] using sound.down q notRoot
  up := sound.up
  sent p sent := by
    by_cases isRoot : p = tree.root
    · simp [isRoot]
    · simpa [isRoot] using sound.sent p sent
  replied := sound.replied
  collected := sound.collected

theorem hear (sound : Sound tree wave down up) {q : Node} (notRoot : q ≠ tree.root)
    {down' : Node → Nat} (here : down q = down' q + 1)
    (elsewhere : ∀ r, r ≠ q → r ≠ tree.root → down' r = down r) :
    Sound tree { wave with heard := Function.update wave.heard q true } down' up where
  down r notRoot' := by
    by_cases same : r = q
    · subst same
      obtain ⟨unheard, sent, one⟩ := sound.of_down notRoot (by omega)
      simp only [Function.update_self, sent, Bool.toNat_true]
      omega
    · simpa [same, elsewhere r same notRoot'] using sound.down r notRoot'
  up := sound.up
  sent p sent := by
    by_cases same : p = q
    · simp [same]
    · simpa [same] using sound.sent p sent
  replied := sound.replied
  collected := sound.collected

theorem forward (sound : Sound tree wave down up) {p : Node} (heard : wave.heard p)
    (unsent : wave.sent p = false) {down' : Node → Nat}
    (told : ∀ q, q ≠ tree.root → down' q = down q + if q ∈ tree.children p then 1 else 0) :
    Sound tree { wave with sent := Function.update wave.sent p true } down' up where
  down q notRoot := by
    have equation := sound.down q notRoot
    have isChild := tree.mem_children p q
    rw [told q notRoot]
    by_cases same : tree.parent q = p
    · subst same
      simp only [isChild, notRoot, ne_eq, not_false_eq_true, true_and, if_true,
        Function.update_self, Bool.toNat_true]
      rw [unsent, Bool.toNat_false] at equation
      omega
    · simp only [isChild, same, and_false, if_false, Function.update_of_ne same]
      omega
  up := sound.up
  sent q sent := by
    by_cases same : q = p
    · exact same ▸ heard
    · simp only [Function.update_of_ne same] at sent
      exact sound.sent q sent
  replied q replied := by
    obtain ⟨notRoot, sent, all⟩ := sound.replied q replied
    refine ⟨notRoot, ?_, all⟩
    by_cases same : q = p
    · simp [same]
    · simpa [same] using sent
  collected := sound.collected

theorem reply (sound : Sound tree wave down up) {q : Node} (notRoot : q ≠ tree.root)
    (sent : wave.sent q) (unreplied : wave.replied q = false)
    (all : wave.collected q = tree.children q) {up' : Node → Nat} (here : up' q = up q + 1)
    (elsewhere : ∀ r, r ≠ q → r ≠ tree.root → up' r = up r) :
    Sound tree { wave with replied := Function.update wave.replied q true } down up' where
  down := sound.down
  up r notRoot' := by
    have equation := sound.up r notRoot'
    by_cases same : r = q
    · subst same
      rw [unreplied, Bool.toNat_false] at equation
      simp only [Function.update_self, Bool.toNat_true]
      omega
    · simpa [same, elsewhere r same notRoot'] using equation
  sent := sound.sent
  replied r replied := by
    by_cases same : r = q
    · subst same
      exact ⟨notRoot, sent, all⟩
    · simp only [Function.update_of_ne same] at replied
      exact sound.replied r replied
  collected := sound.collected

theorem collect (sound : Sound tree wave down up) {q : Node} (notRoot : q ≠ tree.root)
    {up' : Node → Nat} (here : up q = up' q + 1)
    (elsewhere : ∀ r, r ≠ q → r ≠ tree.root → up' r = up r) :
    Sound tree
      { wave with
        collected := Function.update wave.collected (tree.parent q)
          (insert q (wave.collected (tree.parent q))) } down up' := by
  obtain ⟨replied, uncollected, one⟩ := sound.of_up notRoot (by omega)
  refine ⟨sound.down, fun r notRoot' => ?_, sound.sent, fun r isReplied => ?_, fun p => ?_⟩
  · have equation := sound.up r notRoot'
    by_cases same : r = q
    · subst same
      simp only [Function.update_self, Finset.mem_insert_self, if_true, replied, Bool.toNat_true]
      omega
    · by_cases sibling : tree.parent r = tree.parent q
      · simpa [sibling, same, elsewhere r same notRoot'] using equation
      · simpa [sibling, elsewhere r same notRoot'] using equation
  · obtain ⟨notRoot', sent, all⟩ := sound.replied r isReplied
    refine ⟨notRoot', sent, ?_⟩
    by_cases same : r = tree.parent q
    · -- the parent has not replied, since it has not collected this reply
      exfalso
      have member : q ∈ tree.children r := (tree.mem_children r q).mpr ⟨notRoot, same.symm⟩
      rw [← all, same] at member
      exact uncollected member
    · simpa [same] using all
  · by_cases same : p = tree.parent q
    · subst same
      simp only [Function.update_self]
      exact Finset.insert_subset ((tree.mem_children _ q).mpr ⟨notRoot, rfl⟩) (sound.collected _)
    · simpa [same] using sound.collected p

theorem heard_all (sound : Sound tree wave down up) (started : wave.sent tree.root)
    (noDown : ∀ q, q ≠ tree.root → down q = 0)
    (passesOn : ∀ q, q ≠ tree.root → wave.heard q → wave.replied q = false → wave.sent q)
    (q : Node) : wave.heard q ∧ wave.sent q := by
  induction depth : tree.depth q using Nat.strong_induction_on generalizing q with
  | _ depth inductionHypothesis =>
      by_cases isRoot : q = tree.root
      · exact isRoot ▸ ⟨sound.sent _ started, started⟩
      · subst depth
        have sentParent := (inductionHypothesis _ (tree.depth_parent q isRoot) _ rfl).2
        have heard : wave.heard q := by
          have equation := sound.down q isRoot
          rw [noDown q isRoot, sentParent, Nat.zero_add] at equation
          exact Bool.toNat_eq_one.mp equation
        refine ⟨heard, ?_⟩
        cases replied : wave.replied q with
        | true => exact (sound.replied q replied).2.1
        | false => exact passesOn q isRoot heard replied

theorem collected_of_replied (sound : Sound tree wave down up)
    (noUp : ∀ q, q ≠ tree.root → up q = 0) {q : Node} (notRoot : q ≠ tree.root)
    (replied : wave.replied q) : q ∈ wave.collected (tree.parent q) := by
  have equation := sound.up q notRoot
  rw [noUp q notRoot, replied, Nat.zero_add] at equation
  by_contra uncollected
  rw [if_neg uncollected] at equation
  exact absurd equation zero_ne_one

theorem replied_of_collected (sound : Sound tree wave down up) {q : Node}
    (notRoot : q ≠ tree.root) (collected : q ∈ wave.collected (tree.parent q)) :
    wave.replied q := by
  have equation := sound.up q notRoot
  rw [if_pos collected] at equation
  have bound := Bool.toNat_le (wave.replied q)
  exact Bool.toNat_eq_one.mp (by omega)

/-- When the root has collected all replies, all nodes have replied. -/
theorem replied_all (sound : Sound tree wave down up)
    (all : wave.collected tree.root = tree.children tree.root) (q : Node)
    (notRoot : q ≠ tree.root) : wave.replied q := by
  induction depth : tree.depth q using Nat.strong_induction_on generalizing q with
  | _ depth inductionHypothesis =>
      subst depth
      have isChild : q ∈ tree.children (tree.parent q) :=
        (tree.mem_children _ q).mpr ⟨notRoot, rfl⟩
      refine sound.replied_of_collected notRoot ?_
      by_cases isRoot : tree.parent q = tree.root
      · rwa [isRoot, all, ← isRoot]
      · have replied := inductionHypothesis _ (tree.depth_parent q notRoot) _ isRoot rfl
        rwa [(sound.replied _ replied).2.2]

theorem complete (sound : Sound tree wave down up) [Fintype Node] (started : wave.sent tree.root)
    (noDown : ∀ q, q ≠ tree.root → down q = 0) (noUp : ∀ q, q ≠ tree.root → up q = 0)
    (waiting : ∀ q, q ≠ tree.root → wave.heard q → wave.replied q = false →
      wave.sent q ∧ wave.collected q ≠ tree.children q) :
    ∀ q, wave.heard q ∧ (q ≠ tree.root → wave.replied q) ∧
      wave.collected q = tree.children q := by
  have heard (q : Node) : wave.heard q ∧ wave.sent q :=
    sound.heard_all started noDown (fun r notRoot heard unreplied =>
      (waiting r notRoot heard unreplied).1) q
  have replied (q : Node) (notRoot : q ≠ tree.root) : wave.replied q := by
    by_contra unreplied
    obtain ⟨last, isLast, deepest⟩ :=
      Finset.exists_max_image (Finset.univ.filter fun r => r ≠ tree.root ∧ wave.replied r = false)
        tree.depth ⟨q, Finset.mem_filter.mpr ⟨Finset.mem_univ q, notRoot, by simpa using unreplied⟩⟩
    obtain ⟨-, lastNotRoot, lastUnreplied⟩ := Finset.mem_filter.mp isLast
    have incomplete := (waiting last lastNotRoot (heard last).1 lastUnreplied).2
    refine incomplete (Finset.Subset.antisymm (sound.collected last) fun child isChild => ?_)
    obtain ⟨childNotRoot, isParent⟩ := (tree.mem_children last child).mp isChild
    have childReplied : wave.replied child := by
      by_contra childUnreplied
      have shallow := deepest child
        (Finset.mem_filter.mpr ⟨Finset.mem_univ child, childNotRoot, by simpa using childUnreplied⟩)
      have deeper := tree.depth_parent child childNotRoot
      rw [isParent] at deeper
      exact absurd deeper (Nat.not_lt.mpr shallow)
    exact isParent ▸ sound.collected_of_replied noUp childNotRoot childReplied
  refine fun q => ⟨(heard q).1, replied q, ?_⟩
  refine Finset.Subset.antisymm (sound.collected q) fun child isChild => ?_
  obtain ⟨notRoot, isParent⟩ := (tree.mem_children q child).mp isChild
  exact isParent ▸ sound.collected_of_replied noUp notRoot (replied child notRoot)

end Sound

end Convergecast
