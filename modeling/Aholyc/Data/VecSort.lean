import Mathlib.Data.List.GetD
import Aholyc.Lib.HeapSort
import Aholyc.Data.Vec

/-!
# Sorting vectors (lib/data/vec.HC)

`VecSort` is heap sort on the items of a vector, which are exchanged through a
block for one item.
-/

namespace Aholyc.Vec

open Aholyc.Lib
open Aholyc.Lib.Memory (Outcome holds_append)

/-! ## The source -/

/-- `vector->data + index * vector->item_size` of an item that is there. -/
def itemAddress (vector : CVec) (index : Nat) : Option Nat :=
  if index < vector.count then (product index vector.itemSize).map (vector.data + ·) else none

def vecSwapItems (memory : Memory) (vector : CVec) (a b temporary : Nat) : Option Memory :=
  if a = b then some memory
  else
    (itemAddress vector a).bind fun left =>
      (itemAddress vector b).bind fun right =>
        (memory.memCpy temporary left vector.itemSize).bind fun memory =>
          (memory.memCpy left right vector.itemSize).bind fun memory =>
            memory.memCpy right temporary vector.itemSize

section

variable (compare : List UInt8 → List UInt8 → Int) (vector : CVec) (temporary : Nat)

def compareItems (memory : Memory) (a b : Nat) : Option Int :=
  (itemAddress vector a).bind fun left =>
    (itemAddress vector b).bind fun right =>
      (memory.read left vector.itemSize).bind fun item =>
        (memory.read right vector.itemSize).map fun item' => compare item item'

def secondChild (memory : Memory) (root last : Nat) : Option Bool :=
  if root * 2 + 1 + 1 ≤ last then
    (compareItems compare vector memory (root * 2 + 1) (root * 2 + 1 + 1)).map fun order =>
      decide (order < 0)
  else some false

-- A vector has at most 2 ^ 62 items, so that `root * 2 + 1` does not overflow.
def vecSiftDown (last : Nat) (memory : Memory) (root : Nat) : Option Memory :=
  if root * 2 + 1 ≤ last then
    (secondChild compare vector memory root last).bind fun second =>
      let child := if second then root * 2 + 1 + 1 else root * 2 + 1
      (compareItems compare vector memory root child).bind fun order =>
        if order ≥ 0 then some memory
        else
          (vecSwapItems memory vector root child temporary).bind fun memory =>
            vecSiftDown last memory child
  else some memory
termination_by last - root
decreasing_by
  split <;> omega

/-- `while (root) { root--; VecSiftDown(...); }` -/
def buildLoop (memory : Memory) : Nat → Option Memory
  | 0 => some memory
  | root + 1 =>
    (vecSiftDown compare vector temporary (vector.count - 1) memory root).bind fun memory =>
      buildLoop memory root

/-- `while (end > 1) { end--; VecSwapItems(...); VecSiftDown(...); }` -/
def drainLoop (memory : Memory) : Nat → Option Memory
  | 0 => some memory
  | 1 => some memory
  | last + 2 =>
    (vecSwapItems memory vector 0 (last + 1) temporary).bind fun memory =>
      (vecSiftDown compare vector temporary last memory 0).bind fun memory =>
        drainLoop memory (last + 1)

end

def vecSort (allocator : Memory.Allocator) (memory : Memory) (vector : CVec)
    (compare : Option (List UInt8 → List UInt8 → Int)) : Option (Outcome Bool × Memory) :=
  match compare with
  | none => some (.returned false, memory)
  | some compare =>
    if vector.count < 2 then some (.returned true, memory)
    else
      match memory.mAlloc allocator vector.itemSize with
      | none => some (.thrown, memory)
      | some (temporary, memory) =>
        if temporary = 0 then some (.returned false, memory)
        else
          (buildLoop compare vector temporary memory (vector.count / 2)).bind fun memory =>
            (drainLoop compare vector temporary memory vector.count).bind fun memory =>
              (memory.free temporary).map fun memory => (.returned true, memory)

/-! ## Items by index -/

abbrev Item (size : Nat) : Type := {bytes : List UInt8 // bytes.length = size}

abbrev order (compare : List UInt8 → List UInt8 → Int) (size : Nat) : Item size → Item size → Int :=
  fun x y => compare x.1 y.1

def itemsOf {size : Nat} (f : Nat → Item size) (count : Nat) : List (List UInt8) :=
  (List.range count).map fun i => (f i).1

variable {size start last : Nat}

theorem sized_itemsOf (f : Nat → Item size) (count : Nat) : Sized size (itemsOf f count) := by
  intro item isIn
  obtain ⟨i, _, rfl⟩ := List.mem_map.mp isIn
  exact (f i).2

theorem itemsOf_eq (f : Nat → Item size) (count : Nat) :
    itemsOf f count = ((List.range count).map f).map Subtype.val :=
  List.map_map.symm

theorem length_itemsOf (f : Nat → Item size) (count : Nat) : (itemsOf f count).length = count := by
  unfold itemsOf
  rw [List.length_map, List.length_range]

theorem holds_itemsOf {memory : Memory} {f : Nat → Item size} {count : Nat} :
    memory.Holds start (itemsOf f count).flatten ↔
      ∀ i < count, memory.Holds (start + i * size) (f i).1 := by
  induction count with
  | zero =>
    constructor
    · intro _ i less
      cases less
    · intro _ i less
      cases less
  | succ count ih =>
    have isNext : itemsOf f (count + 1) = itemsOf f count ++ [(f count).1] := by
      unfold itemsOf
      rw [List.range_succ, List.map_append, List.map_singleton]
    rw [isNext, List.flatten_append, List.flatten_singleton, holds_append, ih,
      (sized_itemsOf f count).length, length_itemsOf]
    constructor
    · intro both i less
      by_cases isLast : i = count
      · rw [isLast]
        exact both.2
      · exact both.1 i (by omega)
    · intro all
      exact ⟨fun i less => all i (by omega), all count (Nat.lt_succ_self _)⟩

theorem itemsOf_exists {items : List (List UInt8)} (sized : Sized size items) :
    ∃ f : Nat → Item size, items = itemsOf f items.length := by
  have isItem (i : Nat) : (items.getD i (List.replicate size 0)).length = size := by
    by_cases inside : i < items.length
    · rw [List.getD_eq_getElem _ _ inside]
      exact sized _ (List.getElem_mem inside)
    · rw [List.getD_eq_default _ _ (by omega), List.length_replicate]
  refine ⟨fun i => ⟨_, isItem i⟩, ?_⟩
  unfold itemsOf
  apply List.ext_getElem
  · rw [List.length_map, List.length_range]
  · intro i inside inside'
    rw [List.getElem_map, List.getElem_range]
    exact (List.getD_eq_getElem _ _ inside).symm

/-! ## Exchanging two items -/

/-- A vector with its items by index and with a place for one more. -/
structure Holding (memory : Memory) (vector : CVec) (temporary : Nat)
    (f : Nat → Item vector.itemSize) : Prop where
  valid : memory.Valid
  isVec : IsVec memory vector (itemsOf f vector.count)
  readable : memory.Readable temporary vector.itemSize
  apart : Memory.Apart temporary vector.itemSize vector.data (vector.capacity * vector.itemSize)

/-- Only the vector's storage and the place for one item are written. -/
structure Kept (memory : Memory) (vector : CVec) (temporary : Nat) (after : Memory) : Prop where
  blocks : after.blocks = memory.blocks
  agree : ∀ start n, Memory.Apart start n vector.data (vector.capacity * vector.itemSize) →
    Memory.Apart start n temporary vector.itemSize → memory.Agree after start n

theorem Kept.refl (memory : Memory) (vector : CVec) (temporary : Nat) :
    Kept memory vector temporary memory :=
  ⟨rfl, fun _ _ _ _ => Memory.Agree.refl _ _ _⟩

theorem Kept.trans {memory middle after : Memory} {vector : CVec} {temporary : Nat}
    (first : Kept memory vector temporary middle) (second : Kept middle vector temporary after) :
    Kept memory vector temporary after :=
  ⟨second.blocks.trans first.blocks, fun start n apart apart' =>
    (first.agree start n apart apart').trans (second.agree start n apart apart')⟩

section

variable {memory : Memory} {vector : CVec} {temporary : Nat} {f : Nat → Item vector.itemSize}
  (holding : Holding memory vector temporary f) {a b : Nat}

theorem slots_apart (differ : a ≠ b) : Memory.Apart (vector.data + a * vector.itemSize)
    vector.itemSize (vector.data + b * vector.itemSize) vector.itemSize := by
  have next : (a + 1) * vector.itemSize = a * vector.itemSize + vector.itemSize :=
    Nat.succ_mul _ _
  have next' : (b + 1) * vector.itemSize = b * vector.itemSize + vector.itemSize :=
    Nat.succ_mul _ _
  unfold Memory.Apart
  by_cases before : a < b
  · have le := Nat.mul_le_mul_right vector.itemSize (show a + 1 ≤ b from before)
    omega
  · have le := Nat.mul_le_mul_right vector.itemSize (show b + 1 ≤ a by omega)
    omega

theorem child_less (compare : List UInt8 → List UInt8 → Int) {root : Nat}
    (less : last < vector.count) (inside : root * 2 + 1 ≤ last) :
    HeapSort.child root (HeapSort.second (order compare vector.itemSize) f root last) <
      vector.count := by
  unfold HeapSort.child
  split
  next isSecond =>
    unfold HeapSort.second at isSecond
    rw [Bool.and_eq_true, decide_eq_true_eq] at isSecond
    omega
  next => omega

include holding

theorem Holding.address (less : a < vector.count) :
    itemAddress vector a = some (vector.data + a * vector.itemSize) := by
  have le := holding.isVec.le
  unfold itemAddress
  rw [if_pos less, holding.isVec.product_eq (by omega), Option.map_some]

theorem Holding.holds (less : a < vector.count) :
    memory.Holds (vector.data + a * vector.itemSize) (f a).1 :=
  holds_itemsOf.mp holding.isVec.content a less

theorem Holding.compare (compare : List UInt8 → List UInt8 → Int) (less : a < vector.count)
    (less' : b < vector.count) :
    compareItems compare vector memory a b = some (compare (f a).1 (f b).1) := by
  have isItem {i : Nat} (less : i < vector.count) :
      memory.read (vector.data + i * vector.itemSize) vector.itemSize = some (f i).1 :=
    Memory.read_eq_some.mpr ⟨(f i).2, holding.holds less⟩
  unfold compareItems
  rw [holding.address less, Option.bind_some, holding.address less', Option.bind_some,
    isItem less, Option.bind_some, isItem less', Option.map_some]

theorem Holding.second (compare : List UInt8 → List UInt8 → Int) {root : Nat}
    (less : last < vector.count) : secondChild compare vector memory root last =
      some (HeapSort.second (order compare vector.itemSize) f root last) := by
  unfold secondChild HeapSort.second
  by_cases isThere : root * 2 + 1 + 1 ≤ last
  · rw [if_pos isThere, holding.compare compare (by omega) (by omega), Option.map_some,
      decide_eq_true isThere, Bool.true_and]
  · rw [if_neg isThere, decide_eq_false isThere, Bool.false_and]

theorem Holding.swap (less : a < vector.count) (less' : b < vector.count) (differ : a ≠ b) :
    ∃ after, vecSwapItems memory vector a b temporary = some after ∧
      Holding after vector temporary (HeapSort.exchange f a b) ∧
      Kept memory vector temporary after := by
  have le := holding.isVec.le
  have isSlot {i : Nat} (less : i < vector.count) :
      Memory.Apart temporary vector.itemSize (vector.data + i * vector.itemSize)
        vector.itemSize := by
    have inside := @IsVec.inside vector i 1 (by omega)
    rw [Nat.one_mul] at inside
    exact (holding.apart.symm.part (by omega) (by omega)).symm
  have slot {i : Nat} (less : i < vector.count) :=
    holding.isVec.slot holding.valid (show i < vector.capacity by omega)
  have size := (f a).2
  have size' := (f b).2
  -- The first item is saved, the second one takes its place, and the saved one goes there.
  have first := @Memory.memCpy_some memory temporary _ _ (holding.holds less)
    (by rw [size]; exact holding.readable) (by rw [size]; exact isSlot less)
  have saved := Memory.holds_put memory temporary (f a).1
  generalize isOne : memory.put temporary (f a).1 = one at first saved
  have agree {start : Nat} (apart : Memory.Apart temporary vector.itemSize start vector.itemSize) :
      memory.Agree one start vector.itemSize := by
    rw [← isOne]
    apply Memory.agree_put
    rwa [size]
  have second := @Memory.memCpy_some one (vector.data + a * vector.itemSize) _ (f b).1
    ((holding.holds less').agree (by rw [size']; exact agree (isSlot less')))
    (by rw [size']; exact (slot less).agree (agree (isSlot less)))
    (by rw [size']; exact slots_apart differ)
  have moved := Memory.holds_put one (vector.data + a * vector.itemSize) (f b).1
  generalize isTwo : one.put (vector.data + a * vector.itemSize) (f b).1 = two at second moved
  have agree' {start : Nat} (apart : Memory.Apart (vector.data + a * vector.itemSize)
      vector.itemSize start vector.itemSize) : one.Agree two start vector.itemSize := by
    rw [← isTwo]
    apply Memory.agree_put
    rwa [size']
  have saved' : two.Holds temporary (f a).1 := by
    apply saved.agree
    rw [size]
    exact agree' (isSlot less).symm
  have third := @Memory.memCpy_some two (vector.data + b * vector.itemSize) _ (f a).1 saved'
    (by
      rw [size]
      exact ((slot less').agree (agree (isSlot less'))).agree (agree' (slots_apart differ)))
    (by rw [size]; exact (isSlot less').symm)
  have isLast := Memory.holds_put two (vector.data + b * vector.itemSize) (f a).1
  generalize isThree : two.put (vector.data + b * vector.itemSize) (f a).1 = three at third isLast
  have agree'' {start : Nat} (apart : Memory.Apart (vector.data + b * vector.itemSize)
      vector.itemSize start vector.itemSize) : two.Agree three start vector.itemSize := by
    rw [← isThree]
    apply Memory.agree_put
    rwa [size]
  have blocks : three.blocks = memory.blocks := by
    rw [← isThree, ← isTwo, ← isOne]
    rfl
  have valid : three.Valid := by
    rw [← isThree, ← isTwo, ← isOne]
    exact ((holding.valid.put _ _).put _ _).put _ _
  have content : three.Holds vector.data
      (itemsOf (HeapSort.exchange f a b) vector.count).flatten := by
    apply holds_itemsOf.mpr
    intro i inside
    by_cases isSecond : i = b
    · rw [isSecond, HeapSort.exchange_right]
      exact isLast
    by_cases isFirst : i = a
    · rw [isFirst, HeapSort.exchange_left]
      apply moved.agree
      rw [size']
      exact agree'' (slots_apart differ.symm)
    · rw [HeapSort.exchange_other isFirst isSecond]
      apply (holding.holds inside).agree
      rw [(f i).2]
      apply (agree (isSlot inside)).trans
      apply (agree' (slots_apart fun same => isFirst same.symm)).trans
      exact agree'' (slots_apart fun same => isSecond same.symm)
  rw [size] at first third
  rw [size'] at second
  unfold vecSwapItems
  rw [if_neg differ, holding.address less, Option.bind_some, holding.address less',
    Option.bind_some, first, Option.bind_some, second, Option.bind_some, third]
  refine ⟨three, rfl, ⟨valid, ?_, ?_, holding.apart⟩, ⟨blocks, ?_⟩⟩
  · have same : IsVec three { vector with count := vector.count }
        (itemsOf (HeapSort.exchange f a b) vector.count) :=
      holding.isVec.counted (length_itemsOf _ _) le (sized_itemsOf _ _) content blocks
    exact same
  · have saved'' : three.Holds temporary (f a).1 := by
      apply saved'.agree
      rw [size]
      exact agree'' (isSlot less').symm
    have readable := saved''.readable
    rwa [size] at readable
  · intro start n apart apart'
    have inside := @IsVec.inside vector a 1 (by omega)
    have inside' := @IsVec.inside vector b 1 (by omega)
    rw [Nat.one_mul] at inside inside'
    rw [← isThree, ← isTwo, ← isOne]
    apply Memory.Agree.trans (Memory.agree_put _)
    · apply Memory.Agree.trans (Memory.agree_put _)
      · apply Memory.agree_put
        rw [size]
        exact apart.symm.part (by omega) (by omega)
      · rw [size']
        exact apart.symm.part (by omega) (by omega)
    · rw [size]
      exact apart'.symm

end

/-! ## The loops -/

section

variable (compare : List UInt8 → List UInt8 → Int) {vector : CVec} {temporary : Nat}

/-- What sifting does to a vector is what it does to the items. -/
theorem siftDown_holding (less : last < vector.count) (f : Nat → Item vector.itemSize) (root : Nat) :
    ∀ {memory : Memory}, Holding memory vector temporary f →
      ∃ after, vecSiftDown compare vector temporary last memory root = some after ∧
        Holding after vector temporary
          (HeapSort.siftDown (order compare vector.itemSize) last f root) ∧
        Kept memory vector temporary after := by
  induction f, root using HeapSort.siftDown.induct (order compare vector.itemSize) last with
  | case1 f root inside chosen =>
    rename_i stops
    intro memory holding
    have isChild : chosen < vector.count := child_less compare less inside
    unfold vecSiftDown HeapSort.siftDown
    rw [if_pos inside, if_pos inside, holding.second compare less, Option.bind_some]
    dsimp only
    rw [if_pos stops]
    refine ⟨memory, ?_, holding, Kept.refl _ _ _⟩
    have compared := holding.compare compare (show root < vector.count by omega) isChild
    exact (congrArg (Option.bind · _) compared).trans (if_pos stops)
  | case2 f root inside chosen goesOn =>
    rename_i ih
    intro memory holding
    have isChild : chosen < vector.count := child_less compare less inside
    have bounds := HeapSort.child_bounds root
      (HeapSort.second (order compare vector.itemSize) f root last)
    have compared := holding.compare compare (show root < vector.count by omega) isChild
    obtain ⟨middle, swapped, holding', kept⟩ :=
      holding.swap (show root < vector.count by omega) isChild (Nat.ne_of_lt bounds.1)
    obtain ⟨after, sifted, holding'', kept'⟩ := ih holding'
    unfold vecSiftDown HeapSort.siftDown
    rw [if_pos inside, if_pos inside, holding.second compare less, Option.bind_some]
    dsimp only
    rw [if_neg goesOn]
    refine ⟨after, ?_, holding'', kept.trans kept'⟩
    apply (congrArg (Option.bind · _) compared).trans
    apply (if_neg goesOn).trans
    exact (congrArg (Option.bind · _) swapped).trans sifted
  | case3 f root leaf =>
    intro memory holding
    unfold vecSiftDown HeapSort.siftDown
    rw [if_neg leaf, if_neg leaf]
    exact ⟨memory, rfl, holding, Kept.refl _ _ _⟩

variable {memory : Memory} {f : Nat → Item vector.itemSize}

theorem buildLoop_holding (some' : 0 < vector.count) (holding : Holding memory vector temporary f)
    (root : Nat) :
    ∃ after, buildLoop compare vector temporary memory root = some after ∧
      Holding after vector temporary
        (HeapSort.build (order compare vector.itemSize) (vector.count - 1) f root) ∧
      Kept memory vector temporary after := by
  induction root generalizing memory f with
  | zero => exact ⟨memory, rfl, holding, Kept.refl _ _ _⟩
  | succ root ih =>
    obtain ⟨middle, sifted, holding', kept⟩ :=
      siftDown_holding compare (show vector.count - 1 < vector.count by omega) f root holding
    obtain ⟨after, built, holding'', kept'⟩ := ih holding'
    unfold buildLoop HeapSort.build
    rw [sifted, Option.bind_some]
    exact ⟨after, built, holding'', kept.trans kept'⟩

theorem drainLoop_holding (f : Nat → Item vector.itemSize) (next : Nat) :
    next ≤ vector.count → ∀ {memory : Memory}, Holding memory vector temporary f →
      ∃ after, drainLoop compare vector temporary memory next = some after ∧
        Holding after vector temporary
          (HeapSort.drain (order compare vector.itemSize) f next) ∧
        Kept memory vector temporary after := by
  induction f, next using HeapSort.drain.induct (order compare vector.itemSize) with
  | case1 f =>
    intro _ memory holding
    unfold drainLoop HeapSort.drain
    exact ⟨memory, rfl, holding, Kept.refl _ _ _⟩
  | case2 f =>
    intro _ memory holding
    unfold drainLoop HeapSort.drain
    exact ⟨memory, rfl, holding, Kept.refl _ _ _⟩
  | case3 f last ih =>
    intro le memory holding
    obtain ⟨first, swapped, holding', kept⟩ :=
      holding.swap (show 0 < vector.count by omega) (show last + 1 < vector.count by omega)
        (Nat.succ_ne_zero last).symm
    obtain ⟨second, sifted, holding'', kept'⟩ :=
      siftDown_holding compare (show last < vector.count by omega) _ 0 holding'
    obtain ⟨after, drained, isLast, kept''⟩ := ih (by omega) holding''
    unfold drainLoop HeapSort.drain
    rw [swapped, Option.bind_some, sifted, Option.bind_some]
    exact ⟨after, drained, isLast, (kept.trans kept').trans kept''⟩

end

/-! ## The whole sort -/

/-- A vector keeps its items when a block is handed out elsewhere. -/
theorem IsVec.allocate {memory : Memory} {vector : CVec} {items : List (List UInt8)}
    (isVec : IsVec memory vector items) (valid : memory.Valid) {bytes : List UInt8}
    (unused : memory.Unused start bytes.length) (notNil : 0 < bytes.length) :
    IsVec (memory.allocate start bytes) vector items := by
  apply isVec.agree
  · intro n isBlock
    have apart := unused.apart (valid.readable isBlock)
    have positive := (valid.positive isBlock).2
    unfold Memory.Apart at apart
    rw [Memory.allocate_other (by omega)]
    exact isBlock
  · exact Memory.agree_allocate unused (isVec.readable valid)

theorem blocks_unused {memory : Memory} (valid : memory.Valid) (unused : memory.Unused start size)
    (positive : 0 < size) : memory.blocks start = none := by
  cases isBlock : memory.blocks start with
  | none => rfl
  | some n =>
    have apart := unused.apart (valid.readable isBlock)
    have positive' := (valid.positive isBlock).2
    unfold Memory.Apart at apart
    omega

/-- Sorting leaves a sorted permutation of the items in the vector, and everything
else as it was. It fails only if there is no block for one item. -/
theorem vecSort_sorts {allocator : Memory.Allocator} {memory : Memory} {vector : CVec}
    {items : List (List UInt8)} (lawful : allocator.Lawful memory) (valid : memory.Valid)
    (isVec : IsVec memory vector items) {compare : List UInt8 → List UInt8 → Int}
    (preorder : TotalPreorder (order compare vector.itemSize)) :
    ∃ outcome after, vecSort allocator memory vector (some compare) = some (outcome, after) ∧
      (outcome = .returned true ∧
          (∃ items', IsVec after vector items' ∧ items'.Perm items ∧
            items'.Pairwise fun x y => compare x y ≤ 0) ∨
        outcome = .thrown ∧ after = memory ∧ allocator vector.itemSize = none) ∧
      after.Valid ∧ after.blocks = memory.blocks ∧
      ∀ start n, memory.Readable start n →
        Memory.Apart start n vector.data (vector.capacity * vector.itemSize) →
        memory.Agree after start n := by
  have isCount := isVec.count
  unfold vecSort
  dsimp only
  by_cases few : vector.count < 2
  · rw [if_pos few]
    refine ⟨_, _, rfl, Or.inl ⟨rfl, items, isVec, List.Perm.refl _, ?_⟩, valid, rfl,
      fun _ _ _ _ => Memory.Agree.refl _ _ _⟩
    cases items with
    | nil => exact List.Pairwise.nil
    | cons item rest =>
        rw [List.length_cons] at isCount
        have nothing : rest = [] := List.length_eq_zero_iff.mp (by omega)
        rw [nothing]
        exact List.pairwise_singleton _ _
  · rw [if_neg few]
    obtain ⟨f, isItems⟩ := itemsOf_exists isVec.sized
    rw [isCount] at isItems
    rw [isItems] at isVec ⊢
    unfold Memory.mAlloc
    cases answer : allocator vector.itemSize with
    | none =>
        exact ⟨_, _, rfl, Or.inr ⟨rfl, rfl, rfl⟩, valid, rfl,
          fun _ _ _ _ => Memory.Agree.refl _ _ _⟩
    | some block =>
        obtain ⟨temporary, fill⟩ := block
        have unused : memory.Unused temporary vector.itemSize := lawful _ _ answer
        have notBlock := blocks_unused valid unused isVec.positive
        have isFill : ((List.range vector.itemSize).map fill).length = vector.itemSize := by
          rw [List.length_map, List.length_range]
        rw [Option.map_some]
        dsimp only
        generalize (List.range vector.itemSize).map fill = bytes at isFill
        have unused' := unused
        rw [← isFill] at unused'
        have some' : 0 < bytes.length := by
          rw [isFill]
          exact isVec.positive
        have readable := Memory.readable_allocate memory temporary bytes
        rw [isFill] at readable
        have holding : Holding (memory.allocate temporary bytes) vector temporary f :=
          ⟨valid.allocate unused' some', isVec.allocate valid unused' some', readable,
            unused.apart (isVec.readable valid)⟩
        obtain ⟨middle, built, holding', kept⟩ :=
          buildLoop_holding compare (show 0 < vector.count by omega) holding (vector.count / 2)
        obtain ⟨after, drained, isSorted, kept'⟩ :=
          drainLoop_holding compare _ vector.count (Nat.le_refl _) holding'
        have keeps := kept.trans kept'
        have isBlock : after.blocks temporary = some vector.itemSize := by
          rw [keeps.blocks, Memory.allocate_self, isFill]
        rw [if_neg unused.1, built, Option.bind_some, drained, Option.bind_some,
          isSorted.valid.free isBlock, Option.map_some]
        have isResult := HeapSort.heapSort_sorted preorder f vector.count
        have isPerm := isResult.2.map Subtype.val
        rw [← itemsOf_eq, ← itemsOf_eq] at isPerm
        have isPairwise : (itemsOf
            (HeapSort.heapSort (order compare vector.itemSize) f vector.count)
            vector.count).Pairwise fun x y => compare x y ≤ 0 := by
          rw [itemsOf_eq, List.pairwise_map]
          exact isResult.1
        refine ⟨_, _, rfl, Or.inl ⟨rfl, _, ?_, isPerm, isPairwise⟩,
          isSorted.valid.release isBlock, ?_, ?_⟩
        · apply isSorted.isVec.agree
          · intro n isOther
            have differs : vector.data ≠ temporary := by
              intro same
              rw [keeps.blocks, same, Memory.allocate_self] at isOther
              have storage := isVec.storage
              rw [same, notBlock] at storage
              cases storage with
              | inl nothing => exact unused.1 nothing.1
              | inr isStorage => cases isStorage
            rw [Memory.release_other differs]
            exact isOther
          · exact Memory.agree_release isSorted.apart
        · unfold Memory.release
          dsimp only
          rw [keeps.blocks]
          unfold Memory.allocate
          dsimp only
          rw [Function.update_idem, ← notBlock, Function.update_eq_self]
        · intro start n isReadable apart
          have away := unused.apart isReadable
          have first : memory.Agree (memory.allocate temporary bytes) start n :=
            Memory.agree_allocate unused' isReadable
          exact (first.trans (keeps.agree start n apart away.symm)).trans
            (Memory.agree_release away)

def threeItems : Memory :=
  (⟨fun _ => none, fun _ => none⟩ : Memory).allocate 4096 [3, 1, 2, 0, 0, 0, 0, 0]

theorem threeItems_unused (size : Nat) : threeItems.Unused 8192 size := by
  refine ⟨by decide, ?_⟩
  intro i _
  have outside : (⟨fun _ => none, fun _ => none⟩ : Memory).put 4096 [3, 1, 2, 0, 0, 0, 0, 0] =
      ⟨threeItems.bytes, fun _ => none⟩ := rfl
  have isNone := @Memory.put_outside ⟨fun _ => none, fun _ => none⟩ 4096 [3, 1, 2, 0, 0, 0, 0, 0]
    (8192 + i) (Or.inr (by simp only [List.length_cons, List.length_nil]; omega))
  rw [outside] at isNone
  exact isNone

theorem threeItems_isVec : IsVec threeItems ⟨4096, 1, 3, 8⟩ [[3], [1], [2]] where
  positive := by decide
  count := rfl
  sized := by
    unfold Sized
    decide
  grown := Or.inr ⟨0, by decide, rfl⟩
  le := by decide
  fits := by decide
  storage := Or.inr rfl
  content := by
    unfold Memory.Holds
    decide

theorem vecSort_sorts_three :
    ∃ outcome after, vecSort (fun _ => some (8192, fun _ => 0)) threeItems ⟨4096, 1, 3, 8⟩
        (some fun x y => (x.headD 0).toNat - (y.headD 0).toNat) = some (outcome, after) ∧
      (outcome = .returned true ∧
          (∃ items', IsVec after ⟨4096, 1, 3, 8⟩ items' ∧ items'.Perm [[3], [1], [2]] ∧
            items'.Pairwise fun x y => ((x.headD 0).toNat : Int) - (y.headD 0).toNat ≤ 0) ∨
        outcome = .thrown ∧ after = threeItems ∧
          (fun _ => some (8192, fun _ => 0) : Memory.Allocator) 1 = none) ∧
      after.Valid ∧ after.blocks = threeItems.blocks ∧
      ∀ start n, threeItems.Readable start n → Memory.Apart start n 4096 (8 * 1) →
        threeItems.Agree after start n := by
  apply vecSort_sorts _ _ threeItems_isVec
  · constructor
    · intro x y
      dsimp only [order]
      omega
    · intro x y z
      dsimp only [order]
      omega
  · intro size answer isAnswer
    cases isAnswer
    exact threeItems_unused size
  · exact Memory.valid_empty.allocate ⟨by decide, fun _ _ => rfl⟩ (by decide)

end Aholyc.Vec
