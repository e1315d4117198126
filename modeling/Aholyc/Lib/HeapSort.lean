import Mathlib.Logic.Equiv.Basic
import Mathlib.Data.List.Perm.Basic
import Mathlib.Data.List.Nodup
import Mathlib.Tactic.Common

/-!
# Heap sort

Heap sort of the values at the indices below a count, by exchanges. A heap has
its greatest value at the root, and the children of `i` are `2 * i + 1` and
`2 * i + 2`.
-/

namespace Aholyc.Lib

variable {α : Type}

/-- The sign of `compare x y` orders the values, totally. -/
structure TotalPreorder (compare : α → α → Int) : Prop where
  swap : ∀ x y, 0 ≤ compare x y ↔ compare y x ≤ 0
  trans : ∀ x y z, compare x y ≤ 0 → compare y z ≤ 0 → compare x z ≤ 0

namespace TotalPreorder

variable {compare : α → α → Int}

theorem self (preorder : TotalPreorder compare) (x : α) : compare x x ≤ 0 := by
  by_contra greater
  have atLeast : 0 ≤ compare x x := by omega
  exact greater ((preorder.swap x x).mp atLeast)

end TotalPreorder

namespace HeapSort

/-! ## The algorithm -/

def exchange (f : Nat → α) (i j : Nat) : Nat → α := f ∘ Equiv.swap i j

def second (compare : α → α → Int) (f : Nat → α) (root last : Nat) : Bool :=
  root * 2 + 1 + 1 ≤ last && compare (f (root * 2 + 1)) (f (root * 2 + 1 + 1)) < 0

def child (root : Nat) (second : Bool) : Nat :=
  if second then root * 2 + 1 + 1 else root * 2 + 1

theorem child_bounds (root : Nat) (second : Bool) :
    root < child root second ∧ (child root second = root * 2 + 1 ∨
      child root second = root * 2 + 2) := by
  unfold child
  split <;> omega

/-- The value at `root` goes down to its place in the heap that ends at `last`. -/
def siftDown (compare : α → α → Int) (last : Nat) (f : Nat → α) (root : Nat) : Nat → α :=
  if root * 2 + 1 ≤ last then
    let child := child root (second compare f root last)
    if compare (f root) (f child) ≥ 0 then f
    else siftDown compare last (exchange f root child) child
  else f
termination_by last - root
decreasing_by
  have bounds := child_bounds root (second compare f root last)
  omega

/-- `while (root) { root--; siftDown(root); }` -/
def build (compare : α → α → Int) (last : Nat) (f : Nat → α) : Nat → Nat → α
  | 0 => f
  | root + 1 => build compare last (siftDown compare last f root) root

/-- `while (end > 1) { end--; exchange(0, end); siftDown(0); }` -/
def drain (compare : α → α → Int) (f : Nat → α) : Nat → Nat → α
  | 0 => f
  | 1 => f
  | last + 2 => drain compare (siftDown compare last (exchange f 0 (last + 1)) 0) (last + 1)

def heapSort (compare : α → α → Int) (f : Nat → α) (count : Nat) : Nat → α :=
  drain compare (build compare (count - 1) f (count / 2)) count

/-! ## Rearrangements -/

def Rearranges (f g : Nat → α) (low last : Nat) : Prop :=
  ∃ order : Equiv.Perm Nat, g = f ∘ order ∧ ∀ i, i < low ∨ last < i → order i = i

variable {i j : Nat}

namespace Rearranges

variable {f g h : Nat → α} {low last : Nat}

theorem refl (f : Nat → α) (low last : Nat) : Rearranges f f low last :=
  ⟨Equiv.refl Nat, rfl, fun _ _ => rfl⟩

theorem trans (first : Rearranges f g low last) (second : Rearranges g h low last) :
    Rearranges f h low last := by
  obtain ⟨order, isFirst, fixed⟩ := first
  obtain ⟨order', isSecond, fixed'⟩ := second
  refine ⟨order'.trans order, ?_, ?_⟩
  · rw [isSecond, isFirst]
    rfl
  · intro i outside
    rw [Equiv.trans_apply, fixed' i outside, fixed i outside]

theorem wider {low' last' : Nat} (rearranges : Rearranges f g low last) (le : low' ≤ low)
    (le' : last ≤ last') : Rearranges f g low' last' := by
  obtain ⟨order, isOrder, fixed⟩ := rearranges
  exact ⟨order, isOrder, fun i outside => fixed i (by omega)⟩

theorem exchange (isIn : low ≤ i ∧ i ≤ last) (isIn' : low ≤ j ∧ j ≤ last) :
    Rearranges f (exchange f i j) low last := by
  refine ⟨Equiv.swap i j, rfl, ?_⟩
  intro k outside
  apply Equiv.swap_apply_of_ne_of_ne <;> omega

theorem outside (rearranges : Rearranges f g low last) (isOut : i < low ∨ last < i) :
    g i = f i := by
  obtain ⟨order, isOrder, fixed⟩ := rearranges
  rw [isOrder, Function.comp_apply, fixed i isOut]

theorem inside (rearranges : Rearranges f g low last) (isIn : low ≤ i ∧ i ≤ last) :
    ∃ j, (low ≤ j ∧ j ≤ last) ∧ g i = f j := by
  obtain ⟨order, isOrder, fixed⟩ := rearranges
  refine ⟨order i, ?_, by rw [isOrder, Function.comp_apply]⟩
  by_contra isOut
  have same := order.injective (fixed (order i) (by omega))
  rw [same] at isOut
  exact isOut isIn

theorem perm (rearranges : Rearranges f g low last) {count : Nat} (less : last < count) :
    ((List.range count).map g).Perm ((List.range count).map f) := by
  obtain ⟨order, isOrder, fixed⟩ := rearranges
  rw [isOrder, ← List.map_map]
  apply List.Perm.map
  apply (List.perm_ext_iff_of_nodup (List.nodup_range.map order.injective) List.nodup_range).mpr
  have inside {i : Nat} (less' : i < count) : order i < count := by
    by_contra isOut
    have same := order.injective (fixed (order i) (by omega))
    omega
  have inside' {i : Nat} (less' : i < count) : order.symm i < count := by
    by_contra isOut
    have same := fixed (order.symm i) (by omega)
    rw [Equiv.apply_symm_apply] at same
    omega
  intro i
  rw [List.mem_map, List.mem_range]
  constructor
  · rintro ⟨j, isIn, rfl⟩
    exact inside (List.mem_range.mp isIn)
  · intro less'
    exact ⟨order.symm i, List.mem_range.mpr (inside' less'), Equiv.apply_symm_apply _ _⟩

end Rearranges

/-! ## Heaps -/

def IsChild (i j : Nat) : Prop := j = i * 2 + 1 ∨ j = i * 2 + 2

/-- No child up to `last` of an index from `low` on is greater than its parent,
but perhaps those of `hole`. -/
def HeapBut (compare : α → α → Int) (f : Nat → α) (low last hole : Nat) : Prop :=
  ∀ i j, low ≤ i → i ≠ hole → IsChild i j → j ≤ last → compare (f j) (f i) ≤ 0

def Heap (compare : α → α → Int) (f : Nat → α) (low last : Nat) : Prop :=
  ∀ i j, low ≤ i → IsChild i j → j ≤ last → compare (f j) (f i) ≤ 0

/-- What sifting keeps: a heap but for the children of `root`, and these are not
greater than the parent of `root`. -/
structure Sifting (compare : α → α → Int) (f : Nat → α) (low last root : Nat) : Prop where
  from_low : low ≤ root
  heap : HeapBut compare f low last root
  grand : ∀ i j, low ≤ i → IsChild i root → IsChild root j → j ≤ last →
    compare (f j) (f i) ≤ 0

variable {compare : α → α → Int} (preorder : TotalPreorder compare) {f g : Nat → α}
  {low last root count : Nat}

theorem exchange_left : exchange f i j i = f j :=
  congrArg f (Equiv.swap_apply_left i j)

theorem exchange_right : exchange f i j j = f i :=
  congrArg f (Equiv.swap_apply_right i j)

theorem exchange_other {k : Nat} (other : k ≠ i) (other' : k ≠ j) : exchange f i j k = f k :=
  congrArg f (Equiv.swap_apply_of_ne_of_ne other other')

theorem Sifting.step (sifting : Sifting compare f low last root) {child : Nat}
    (isChild : IsChild root child) (le : child ≤ last)
    (greatest : ∀ j, IsChild root j → j ≤ last → compare (f j) (f child) ≤ 0)
    (smaller : compare (f root) (f child) < 0) :
    Sifting compare (exchange f root child) low last child := by
  have from_low := sifting.from_low
  unfold IsChild at isChild
  constructor
  · omega
  · intro i j low_le notChild isEdge le'
    by_cases isRoot : i = root
    · rw [isRoot] at isEdge ⊢
      rw [exchange_left]
      by_cases same : j = child
      · rw [same, exchange_right]
        omega
      · have isOther := isEdge
        unfold IsChild at isOther
        rw [exchange_other (by omega) same]
        exact greatest j isEdge le'
    · rw [exchange_other isRoot notChild]
      by_cases toRoot : j = root
      · rw [toRoot] at isEdge ⊢
        rw [exchange_left]
        exact sifting.grand i child low_le isEdge isChild le
      · have isOther := isEdge
        unfold IsChild at isOther
        rw [exchange_other toRoot (by omega)]
        exact sifting.heap i j low_le isRoot isEdge le'
  · intro i j low_le isEdge isEdge' le'
    have isLower := isEdge'
    unfold IsChild at isEdge isLower
    have isRoot : i = root := by omega
    rw [isRoot, exchange_left, exchange_other (by omega) (by omega)]
    exact sifting.heap child j (by omega) (by omega) isEdge' le'

include preorder

/-- The child that is chosen is there, and no child is greater. -/
theorem child_greatest (inside : root * 2 + 1 ≤ last) :
    child root (second compare f root last) ≤ last ∧
      ∀ j, IsChild root j → j ≤ last →
        compare (f j) (f (child root (second compare f root last))) ≤ 0 := by
  unfold child
  by_cases isSecond : second compare f root last = true
  · rw [if_pos isSecond]
    unfold second at isSecond
    rw [Bool.and_eq_true, decide_eq_true_eq, decide_eq_true_eq] at isSecond
    refine ⟨isSecond.1, ?_⟩
    intro j isChild le
    cases isChild with
    | inl isFirst =>
      rw [isFirst]
      exact Int.le_of_lt isSecond.2
    | inr isOther =>
      rw [isOther]
      exact preorder.self _
  · rw [if_neg isSecond]
    unfold second at isSecond
    rw [Bool.and_eq_true, decide_eq_true_eq, decide_eq_true_eq] at isSecond
    refine ⟨inside, ?_⟩
    intro j isChild le
    cases isChild with
    | inl isFirst =>
      rw [isFirst]
      exact preorder.self _
    | inr isOther =>
      rw [isOther] at le ⊢
      apply (preorder.swap _ _).mp
      by_contra negative
      exact isSecond ⟨le, Int.lt_of_not_ge negative⟩

/-- Sifting ends in a heap, which has the same values. -/
theorem siftDown_heap (sifting : Sifting compare f low last root) :
    Heap compare (siftDown compare last f root) low last ∧
      Rearranges f (siftDown compare last f root) root last := by
  induction f, root using siftDown.induct compare last with
  | case1 f root inside chosen stops =>
    unfold siftDown
    rw [if_pos inside]
    dsimp only
    rw [if_pos stops]
    refine ⟨?_, Rearranges.refl _ _ _⟩
    intro i j low_le isEdge le
    by_cases isRoot : i = root
    · rw [isRoot] at isEdge ⊢
      obtain ⟨_, greatest⟩ := @child_greatest _ _ preorder f _ _ inside
      exact preorder.trans _ _ _ (greatest j isEdge le) ((preorder.swap _ _).mp stops)
    · exact sifting.heap i j low_le isRoot isEdge le
  | case2 f root inside chosen goesOn ih =>
    obtain ⟨le, greatest⟩ := @child_greatest _ _ preorder f _ _ inside
    have bounds := child_bounds root (second compare f root last)
    have isChild : IsChild root chosen := bounds.2
    have next := sifting.step isChild le greatest (by omega)
    obtain ⟨heap, rearranges⟩ := ih next
    unfold siftDown
    rw [if_pos inside]
    dsimp only
    rw [if_neg goesOn]
    refine ⟨heap, ?_⟩
    have less : root < chosen := bounds.1
    have le' : chosen ≤ last := le
    apply Rearranges.trans _ (rearranges.wider (by omega) (Nat.le_refl _))
    exact Rearranges.exchange (by omega) (by omega)
  | case3 f root leaf =>
    unfold siftDown
    rw [if_neg leaf]
    refine ⟨?_, Rearranges.refl _ _ _⟩
    intro i j low_le isEdge le
    apply sifting.heap i j low_le _ isEdge le
    unfold IsChild at isEdge
    omega

theorem build_heap (heap : Heap compare f root last) :
    Heap compare (build compare last f root) 0 last ∧
      Rearranges f (build compare last f root) 0 last := by
  induction root generalizing f with
  | zero => exact ⟨heap, Rearranges.refl _ _ _⟩
  | succ root ih =>
    have sifting : Sifting compare f root last root := by
      constructor
      · exact Nat.le_refl _
      · intro i j low_le notRoot isEdge le
        exact heap i j (by omega) isEdge le
      · intro i j low_le isEdge
        unfold IsChild at isEdge
        omega
    obtain ⟨heap', rearranges⟩ := siftDown_heap preorder sifting
    obtain ⟨heap'', rearranges'⟩ := ih heap'
    unfold build
    exact ⟨heap'', (rearranges.wider (Nat.zero_le _) (Nat.le_refl _)).trans rearranges'⟩

theorem Heap.greatest (heap : Heap compare f 0 last) (i : Nat) (le : i ≤ last) :
    compare (f i) (f 0) ≤ 0 := by
  induction i using Nat.strongRecOn with
  | ind i ih =>
    by_cases isRoot : i = 0
    · rw [isRoot]
      exact preorder.self _
    · have parent := ih ((i - 1) / 2) (by omega) (by omega)
      apply preorder.trans _ _ _ _ parent
      apply heap _ _ (Nat.zero_le _) _ le
      unfold IsChild
      omega

/-- What draining keeps: a heap below `next` and sorted values from there on, of
which none is smaller than one in the heap. -/
structure Draining (compare : α → α → Int) (f : Nat → α) (next count : Nat) : Prop where
  le : next ≤ count
  heap : ∀ last, last < next → Heap compare f 0 last
  sorted : ∀ i j, next ≤ i → i < j → j < count → compare (f i) (f j) ≤ 0
  above : ∀ i j, i < next → next ≤ j → j < count → compare (f i) (f j) ≤ 0

theorem Draining.step (draining : Draining compare f (last + 2) count) :
    Draining compare (siftDown compare last (exchange f 0 (last + 1)) 0) (last + 1) count ∧
      Rearranges f (siftDown compare last (exchange f 0 (last + 1)) 0) 0 (last + 1) := by
  have le := draining.le
  have greatest := (draining.heap (last + 1) (by omega)).greatest preorder
  have sifting : Sifting compare (exchange f 0 (last + 1)) 0 last 0 := by
    constructor
    · exact Nat.le_refl _
    · intro i j _ notRoot isEdge le'
      have isBelow := isEdge
      unfold IsChild at isBelow
      rw [exchange_other (by omega) (by omega), exchange_other notRoot (by omega)]
      exact draining.heap (last + 1) (by omega) i j (Nat.zero_le _) isEdge (by omega)
    · intro i j _ isEdge
      unfold IsChild at isEdge
      omega
  obtain ⟨heap, rearranges⟩ := siftDown_heap preorder sifting
  generalize siftDown compare last (exchange f 0 (last + 1)) 0 = g at heap rearranges ⊢
  have isLast : g (last + 1) = f 0 := by
    rw [rearranges.outside (Or.inr (Nat.lt_succ_self _)), exchange_right]
  have isBehind {j : Nat} (less : last + 1 < j) : g j = f j := by
    rw [rearranges.outside (Or.inr (by omega)), exchange_other (by omega) (by omega)]
  have isBefore {i : Nat} (less : i < last + 1) : ∃ k ≤ last + 1, g i = f k := by
    obtain ⟨k, isIn, same⟩ := rearranges.inside (show 0 ≤ i ∧ i ≤ last by omega)
    by_cases isRoot : k = 0
    · rw [isRoot, exchange_left] at same
      exact ⟨last + 1, Nat.le_refl _, same⟩
    · rw [exchange_other isRoot (by omega)] at same
      exact ⟨k, by omega, same⟩
  refine ⟨⟨by omega, ?_, ?_, ?_⟩, ?_⟩
  · intro last' less i j low_le isEdge le'
    exact heap i j low_le isEdge (by omega)
  · intro i j atLeast less inside
    rw [isBehind (show last + 1 < j by omega)]
    by_cases isFirst : i = last + 1
    · rw [isFirst, isLast]
      exact draining.above 0 j (by omega) (by omega) inside
    · rw [isBehind (by omega)]
      exact draining.sorted i j (by omega) less inside
  · intro i j less atLeast inside
    obtain ⟨k, isIn, same⟩ := isBefore less
    rw [same]
    by_cases isFirst : j = last + 1
    · rw [isFirst, isLast]
      exact greatest k isIn
    · rw [isBehind (by omega)]
      exact draining.above k j (by omega) (by omega) inside
  · apply Rearranges.trans _ (rearranges.wider (Nat.le_refl _) (Nat.le_succ _))
    exact Rearranges.exchange (by omega) (by omega)

theorem drain_sorted {next : Nat} (draining : Draining compare f next count) :
    (∀ i j, i < j → j < count → compare (drain compare f next i) (drain compare f next j) ≤ 0) ∧
      Rearranges f (drain compare f next) 0 (next - 1) := by
  induction f, next using drain.induct compare with
  | case1 f =>
    unfold drain
    exact ⟨fun i j less inside => draining.sorted i j (Nat.zero_le _) less inside,
      Rearranges.refl _ _ _⟩
  | case2 f =>
    unfold drain
    refine ⟨?_, Rearranges.refl _ _ _⟩
    intro i j less inside
    by_cases isFirst : i = 0
    · exact draining.above i j (by omega) (by omega) inside
    · exact draining.sorted i j (by omega) less inside
  | case3 f last ih =>
    obtain ⟨next, rearranges⟩ := draining.step preorder
    obtain ⟨sorted, rearranges'⟩ := ih next
    unfold drain
    exact ⟨sorted, rearranges.trans (rearranges'.wider (Nat.le_refl _) (by omega))⟩

theorem heapSort_sorted (f : Nat → α) (count : Nat) :
    ((List.range count).map (heapSort compare f count)).Pairwise
        (fun x y => compare x y ≤ 0) ∧
      ((List.range count).map (heapSort compare f count)).Perm ((List.range count).map f) := by
  have leaves : Heap compare f (count / 2) (count - 1) := by
    intro i j low_le isEdge le
    unfold IsChild at isEdge
    omega
  obtain ⟨heap, rearranges⟩ := build_heap preorder leaves
  have draining : Draining compare (build compare (count - 1) f (count / 2)) count count := by
    constructor
    · exact Nat.le_refl _
    · intro last less i j low_le isEdge le
      exact heap i j low_le isEdge (by omega)
    · intro i j atLeast less inside
      omega
    · intro i j less atLeast inside
      omega
  obtain ⟨sorted, rearranges'⟩ := drain_sorted preorder draining
  unfold heapSort
  constructor
  · rw [List.pairwise_map]
    apply List.pairwise_lt_range.imp_of_mem
    intro i j _ isIn less
    exact sorted i j less (List.mem_range.mp isIn)
  · cases count with
    | zero => exact List.Perm.refl _
    | succ count => exact (rearranges.trans rearranges').perm (Nat.lt_succ_self _)

end HeapSort

end Aholyc.Lib
