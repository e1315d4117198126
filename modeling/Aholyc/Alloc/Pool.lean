import Aholyc.Alloc.Alloc
import Mathlib.Data.List.Nodup
import Mathlib.Data.List.Perm.Basic
import Mathlib.Data.List.Range

/-!
# The pool allocator (lib/alloc/pool.hc)

The free blocks are chained through their own bytes. Free and live blocks are
together the blocks of the pool, whatever the owners of the live ones write.
-/

namespace Aholyc.Alloc

open Aholyc.Lib

structure CPoolAllocator where
  memory : Int
  freeList : Int
  blockSize : Int
  stride : Int
  count : Int
  available : Int
  alignment : Int
  deriving DecidableEq, Repr

def loadBytes (bytes : Bytes) (address : Int) : Nat → Int
  | 0 => 0
  | size + 1 => (bytes address).toNat + 256 * loadBytes bytes (address + 1) size

def storeBytes (bytes : Bytes) (address : Int) : Nat → Int → Bytes
  | 0, _ => bytes
  | size + 1, value => fun other =>
    if other = address then UInt8.ofNat (value % 256).toNat
    else storeBytes bytes (address + 1) size (value / 256) other

def loadNext (bytes : Bytes) (block : Int) : Int := loadBytes bytes block 8

def storeNext (bytes : Bytes) (block next : Int) : Bytes := storeBytes bytes block 8 next

def CPoolAllocator.refused (pool : CPoolAllocator) : Bool :=
  pool.memory = 0 ∨ pool.blockSize < 8 ∨ pool.stride < pool.blockSize ∨ pool.count ≤ 0

def CPoolAllocator.release (pool : CPoolAllocator) (bytes : Bytes) (block : Int) :
    CPoolAllocator × Bytes :=
  ({ pool with freeList := block, available := pool.available + 1 },
    storeNext bytes block pool.freeList)

def poolAllocatorRealloc (pool : CPoolAllocator) (bytes : Bytes)
    (memory oldSize newSize alignment : Int) : CPoolAllocator × Bytes × Int :=
  if oldSize < 0 ∨ newSize < 0 ∨ !allocAlignmentValid alignment ∨ alignment > pool.alignment ∨
      pool.refused ∨ pool.available < 0 ∨ pool.available > pool.count then (pool, bytes, 0)
  else if memory = 0 then
    if oldSize ≠ 0 ∨ newSize = 0 ∨ newSize > pool.blockSize ∨ pool.available = 0 ∨
        pool.freeList = 0 then (pool, bytes, 0)
    else
      ({ pool with
          freeList := loadNext bytes pool.freeList
          available := pool.available - 1 }, bytes, pool.freeList)
  else
    match offsetOf pool.memory memory alignment with
    | none => (pool, bytes, 0)
    | some position =>
      if position % pool.stride ≠ 0 ∨ position / pool.stride ≥ pool.count ∨
          oldSize > pool.blockSize ∨ pool.available ≥ pool.count then (pool, bytes, 0)
      else if newSize = 0 then
        let after := pool.release bytes memory
        (after.1, after.2, 0)
      else if newSize > pool.blockSize then (pool, bytes, 0)
      else (pool, bytes, memory)

def poolAllocatorFree (pool : CPoolAllocator) (bytes : Bytes) (memory size alignment : Int) :
    CPoolAllocator × Bytes :=
  if memory = 0 ∨ size < 0 ∨ size > pool.blockSize ∨ !allocAlignmentValid alignment ∨
      alignment > pool.alignment ∨ pool.refused ∨ pool.available < 0 ∨
      pool.available ≥ pool.count then (pool, bytes)
  else
    match offsetOf pool.memory memory alignment with
    | none => (pool, bytes)
    | some position =>
      if position % pool.stride ≠ 0 ∨ position / pool.stride ≥ pool.count then (pool, bytes)
      else pool.release bytes memory

/-- The loop of `PoolAllocatorReset`, with the bytes and the free list. -/
def resetLoop (pool : CPoolAllocator) : Nat → Bytes × Int → Bytes × Int
  | 0, chained => chained
  | i + 1, (bytes, freeList) =>
    let block := u64 (pool.memory + i64 (i * pool.stride))
    resetLoop pool i (storeNext bytes block freeList, block)

def poolAllocatorReset (pool : CPoolAllocator) (bytes : Bytes) : CPoolAllocator × Bytes :=
  if pool.refused then (pool, bytes)
  else
    let chained := resetLoop pool pool.count.toNat (bytes, 0)
    ({ pool with freeList := chained.2, available := pool.count }, chained.1)

def poolAllocatorInit (bytes : Bytes) (memory capacity blockSize alignment : Int) :
    Option (CPoolAllocator × Bytes) :=
  if memory = 0 ∨ capacity < 0 ∨ blockSize < 8 ∨ !allocAlignmentValid alignment ∨
      blockSize > i64Max - (alignment - 1) then none
  else
    let front := padding memory alignment
    if front > capacity ∨ u64 (memory + front) < memory then none
    else
      let stride := i64 (blockSize + padding blockSize alignment)
      let count := (capacity - front) / stride
      if count = 0 then none
      else some (poolAllocatorReset ⟨u64 (memory + front), 0, blockSize, stride, count, 0,
        alignment⟩ bytes)

/-! ## Histories -/

inductive PoolRequest where
  | alloc (size alignment : Int)
  /-- The live block at the index, with the size and the alignment asked for. -/
  | free (index : Nat)
  | realloc (index : Nat) (size : Int)
  /-- The owners of the live blocks write what they like into them. -/
  | write (data : Bytes)
  | reset

structure PoolHistory where
  pool : CPoolAllocator
  bytes : Bytes
  live : List LiveBlock

def PoolHistory.owned (history : PoolHistory) (address : Int) : Bool :=
  history.live.any fun block =>
    block.region.start ≤ address && address < block.region.start + history.pool.blockSize

def PoolHistory.step (history : PoolHistory) : PoolRequest → PoolHistory
  | .alloc size alignment =>
    let after := poolAllocatorRealloc history.pool history.bytes 0 0 size alignment
    ⟨after.1, after.2.1, if after.2.2 = 0 then history.live
      else ⟨⟨after.2.2, size⟩, alignment⟩ :: history.live⟩
  | .free index =>
    match history.live[index]? with
    | none => history
    | some block =>
      let after := poolAllocatorFree history.pool history.bytes block.region.start
        block.region.size block.alignment
      ⟨after.1, after.2, history.live.eraseIdx index⟩
  | .realloc index size =>
    match history.live[index]? with
    | none => history
    | some block =>
      let after := poolAllocatorRealloc history.pool history.bytes block.region.start
        block.region.size size block.alignment
      ⟨after.1, after.2.1, if size = 0 then history.live.eraseIdx index
        else if after.2.2 = 0 then history.live
        else history.live.set index ⟨⟨after.2.2, size⟩, block.alignment⟩⟩
  | .write data =>
    { history with
      bytes := fun address =>
        if history.owned address then data address else history.bytes address }
  | .reset =>
    let after := poolAllocatorReset history.pool history.bytes
    ⟨after.1, after.2, []⟩

/-! ## Words in memory -/

theorem storeBytes_outside (bytes : Bytes) (size : Nat) (address value : Int) {other : Int}
    (outside : other < address ∨ address + size ≤ other) :
    storeBytes bytes address size value other = bytes other := by
  induction size generalizing address value with
  | zero => rfl
  | succ size ih =>
    have differs : other ≠ address := by omega
    simp only [storeBytes, if_neg differs]
    apply ih
    omega

variable {bytes' : Bytes} {size : Int}

theorem loadBytes_congr {bytes : Bytes} (size : Nat) (address : Int)
    (same : ∀ other, address ≤ other → other < address + size → bytes other = bytes' other) :
    loadBytes bytes address size = loadBytes bytes' address size := by
  induction size generalizing address with
  | zero => rfl
  | succ size ih =>
    rw [loadBytes, loadBytes, same address (Int.le_refl address) (by omega)]
    rw [ih (address + 1) fun other low high => same other (by omega) (by omega)]

theorem loadBytes_storeBytes (bytes : Bytes) (size : Nat) (address : Int) {value : Int}
    (nonneg : 0 ≤ value) (less : value < 256 ^ size) :
    loadBytes (storeBytes bytes address size value) address size = value := by
  induction size generalizing address value with
  | zero =>
    rw [pow_zero] at less
    rw [loadBytes]
    omega
  | succ size ih =>
    have rest : loadBytes (storeBytes bytes address (size + 1) value) (address + 1) size =
        value / 256 := by
      rw [← ih (address + 1) (Int.ediv_nonneg nonneg (by decide))
        (Int.ediv_lt_of_lt_mul (by decide) (by rw [← pow_succ]; exact less))]
      apply loadBytes_congr
      intro other low _
      have differs : other ≠ address := by omega
      simp only [storeBytes, if_neg differs]
    have first : storeBytes bytes address (size + 1) value address =
        UInt8.ofNat (value % 256).toNat := if_pos rfl
    have isByte : (UInt8.ofNat (value % 256).toNat).toNat = (value % 256).toNat := by
      apply UInt8.toNat_ofNat_of_lt'
      show (value % 256).toNat < 256
      omega
    rw [loadBytes, rest, first, isByte]
    omega

theorem loadNext_storeNext (bytes : Bytes) (block : Int) {next : Int} (nonneg : 0 ≤ next)
    (isWord : next < 18446744073709551616) :
    loadNext (storeNext bytes block next) block = next :=
  loadBytes_storeBytes bytes 8 block nonneg (by omega)

def Chained (bytes : Bytes) : Int → List Int → Prop
  | head, [] => head = 0
  | head, block :: rest => head = block ∧ block ≠ 0 ∧ Chained bytes (loadNext bytes block) rest

theorem Chained.congr {bytes : Bytes} {head : Int} {free : List Int}
    (chained : Chained bytes head free)
    (same : ∀ block ∈ free, ∀ address, block ≤ address → address < block + 8 →
      bytes address = bytes' address) : Chained bytes' head free := by
  induction free generalizing head with
  | nil => exact chained
  | cons block rest ih =>
    obtain ⟨isHead, notNull, others⟩ := chained
    have isNext : loadNext bytes' block = loadNext bytes block :=
      (loadBytes_congr 8 block fun address low high =>
        same block List.mem_cons_self address low high).symm
    refine ⟨isHead, notNull, ?_⟩
    rw [isNext]
    exact ih others fun other isRest => same other (List.mem_cons_of_mem block isRest)

/-! ## The blocks of a pool -/

def CPoolAllocator.block (pool : CPoolAllocator) (i : Nat) : Int := pool.memory + i * pool.stride

def CPoolAllocator.blocks (pool : CPoolAllocator) : List Int :=
  (List.range pool.count.toNat).map pool.block

/-- The blocks of the pool lie in a buffer from `low` to `high`. -/
structure CPoolAllocator.Shaped (low high : Int) (pool : CPoolAllocator) : Prop where
  low_le : low ≤ pool.memory
  positive : 0 < pool.memory
  aligned : pool.memory % pool.alignment = 0
  strideAligned : pool.stride % pool.alignment = 0
  valid : allocAlignmentValid pool.alignment = true
  holds : 8 ≤ pool.blockSize
  apart : pool.blockSize ≤ pool.stride
  counted : 0 < pool.count
  inside : pool.memory + pool.count * pool.stride ≤ high
  small : pool.count * pool.stride ≤ i64Max
  isWord : high ≤ 18446744073709551616

section

variable {low high : Int} {pool : CPoolAllocator} {bytes : Bytes}

theorem CPoolAllocator.Shaped.update (shaped : pool.Shaped low high) (freeList available : Int) :
    CPoolAllocator.Shaped low high
      { pool with freeList := freeList, available := available } :=
  ⟨shaped.low_le, shaped.positive, shaped.aligned, shaped.strideAligned, shaped.valid, shaped.holds,
    shaped.apart, shaped.counted, shaped.inside, shaped.small, shaped.isWord⟩

theorem CPoolAllocator.Shaped.refused_eq (shaped : pool.Shaped low high) :
    pool.refused = false := by
  have positive := shaped.positive
  have holds := shaped.holds
  have apart := shaped.apart
  have counted := shaped.counted
  unfold CPoolAllocator.refused
  rw [decide_eq_false_iff_not]
  omega

variable {address : Int}

theorem CPoolAllocator.mem_blocks :
    address ∈ pool.blocks ↔ ∃ i : Nat, (i : Int) < pool.count ∧ address = pool.block i := by
  unfold CPoolAllocator.blocks
  rw [List.mem_map]
  constructor
  · rintro ⟨i, isIn, rfl⟩
    rw [List.mem_range] at isIn
    exact ⟨i, by omega, rfl⟩
  · rintro ⟨i, less, rfl⟩
    exact ⟨i, List.mem_range.mpr (by omega), rfl⟩

/-- A block and the gap behind it end in front of the end of the buffer. -/
theorem CPoolAllocator.Shaped.block_inside (shaped : pool.Shaped low high) {block : Int}
    (isBlock : block ∈ pool.blocks) :
    pool.memory ≤ block ∧ block - pool.memory + pool.stride ≤ pool.count * pool.stride := by
  obtain ⟨i, less, rfl⟩ := CPoolAllocator.mem_blocks.mp isBlock
  have nonneg : 0 ≤ pool.stride := by
    have holds := shaped.holds
    have apart := shaped.apart
    omega
  have front : 0 ≤ (i : Int) * pool.stride := Int.mul_nonneg (by omega) nonneg
  have behind : ((i : Int) + 1) * pool.stride ≤ pool.count * pool.stride :=
    Int.mul_le_mul_of_nonneg_right (by omega) nonneg
  rw [Int.add_mul, Int.one_mul] at behind
  unfold CPoolAllocator.block
  omega

theorem CPoolAllocator.Shaped.block_aligned (shaped : pool.Shaped low high) {block : Int}
    (isBlock : block ∈ pool.blocks) : block % pool.alignment = 0 := by
  obtain ⟨i, less, rfl⟩ := CPoolAllocator.mem_blocks.mp isBlock
  have stride := Int.dvd_of_emod_eq_zero shaped.strideAligned
  have memory := Int.dvd_of_emod_eq_zero shaped.aligned
  unfold CPoolAllocator.block
  exact Int.emod_eq_zero_of_dvd (Int.dvd_add memory (Dvd.dvd.mul_left stride i))

theorem CPoolAllocator.Shaped.blocks_apart (shaped : pool.Shaped low high) {one two : Int}
    (isOne : one ∈ pool.blocks) (isTwo : two ∈ pool.blocks) (differs : one ≠ two) :
    Region.Apart ⟨one, pool.stride⟩ ⟨two, pool.stride⟩ := by
  obtain ⟨i, _, rfl⟩ := CPoolAllocator.mem_blocks.mp isOne
  obtain ⟨j, _, rfl⟩ := CPoolAllocator.mem_blocks.mp isTwo
  have differs' : (i : Int) ≠ j := by
    intro same
    apply differs
    unfold CPoolAllocator.block
    rw [same]
  have nonneg : 0 ≤ pool.stride := by
    have holds := shaped.holds
    have apart := shaped.apart
    omega
  exact Region.apart_of_ne differs' rfl rfl (Int.le_refl _) (Int.le_refl _) nonneg

theorem CPoolAllocator.Shaped.blocks_nodup (shaped : pool.Shaped low high) : pool.blocks.Nodup := by
  apply List.Nodup.map _ List.nodup_range
  intro i j same
  have positive : pool.stride ≠ 0 := by
    have holds := shaped.holds
    have apart := shaped.apart
    omega
  have multiples : (i : Int) * pool.stride = j * pool.stride := by
    unfold CPoolAllocator.block at same
    omega
  exact Int.natCast_inj.mp (Int.eq_of_mul_eq_mul_right positive multiples)

/-- The checks of an address find out whether it is the start of a block. -/
theorem CPoolAllocator.Shaped.offset_iff (shaped : pool.Shaped low high) {alignment : Int}
    (valid : allocAlignmentValid alignment = true) (le : alignment ≤ pool.alignment)
    (nonneg : 0 ≤ address) (isWord : address < 18446744073709551616) :
    address ∈ pool.blocks ↔ ∃ position, offsetOf pool.memory address alignment = some position ∧
      position % pool.stride = 0 ∧ position / pool.stride < pool.count := by
  have holds := shaped.holds
  have apart := shaped.apart
  have positive := shaped.positive
  have small := shaped.small
  constructor
  · intro isBlock
    have inside := shaped.block_inside isBlock
    have aligned := aligned_of_le shaped.valid valid le (shaped.block_aligned isBlock)
    obtain ⟨i, less, rfl⟩ := CPoolAllocator.mem_blocks.mp isBlock
    unfold CPoolAllocator.block at *
    have front : 0 ≤ (i : Int) * pool.stride := Int.mul_nonneg (by omega) (by omega)
    refine ⟨i * pool.stride, ?_, Int.mul_emod_left i pool.stride, ?_⟩
    · exact offsetOf_inside (by omega) valid front (by omega) (by omega) aligned
    · rw [Int.mul_ediv_cancel i (by omega)]
      exact less
  · rintro ⟨position, found, whole, less⟩
    obtain ⟨rfl, isNonneg, _, _⟩ := offsetOf_eq_some (by omega) valid nonneg isWord found
    have quotient : 0 ≤ position / pool.stride := Int.ediv_nonneg isNonneg (by omega)
    apply CPoolAllocator.mem_blocks.mpr
    refine ⟨(position / pool.stride).toNat, by omega, ?_⟩
    unfold CPoolAllocator.block
    rw [Int.toNat_of_nonneg quotient, Int.ediv_mul_cancel (Int.dvd_of_emod_eq_zero whole)]

theorem poolAllocatorFree_foreign (shaped : pool.Shaped low high) (bytes : Bytes)
    (nonneg : 0 ≤ address) (isWord : address < 18446744073709551616)
    (foreign : address ∉ pool.blocks) (size alignment : Int) :
    poolAllocatorFree pool bytes address size alignment = (pool, bytes) := by
  unfold poolAllocatorFree
  split
  · rfl
  next accepted =>
    have valid : allocAlignmentValid alignment = true := by
      by_contra invalid
      simp [invalid] at accepted
    have le : alignment ≤ pool.alignment := by omega
    rw [shaped.offset_iff valid le nonneg isWord] at foreign
    split
    · rfl
    next position found =>
      have outside : position % pool.stride ≠ 0 ∨ position / pool.stride ≥ pool.count := by
        by_contra inside
        apply foreign
        exact ⟨position, found, by omega, by omega⟩
      rw [if_pos outside]

theorem poolAllocatorFree_block (shaped : pool.Shaped low high) (bytes : Bytes)
    (nonneg : 0 ≤ pool.available) (less : pool.available < pool.count) {alignment : Int}
    (isBlock : address ∈ pool.blocks) (isSize : 0 ≤ size) (fits : size ≤ pool.blockSize)
    (valid : allocAlignmentValid alignment = true) (le : alignment ≤ pool.alignment) :
    poolAllocatorFree pool bytes address size alignment = pool.release bytes address := by
  have positive := shaped.positive
  have holds := shaped.holds
  have apart := shaped.apart
  have inside := shaped.block_inside isBlock
  have limit := shaped.inside
  have isWord := shaped.isWord
  have ready := shaped.refused_eq
  obtain ⟨position, found, whole, isIndex⟩ :=
    (shaped.offset_iff valid le (by omega) (by omega)).mp isBlock
  have accepted : ¬(address = 0 ∨ size < 0 ∨ size > pool.blockSize ∨
      (!allocAlignmentValid alignment) = true ∨ alignment > pool.alignment ∨
      pool.refused = true ∨ pool.available < 0 ∨ pool.available ≥ pool.count) := by
    rw [valid, ready]
    simp only [Bool.not_true, Bool.false_eq_true, false_or]
    omega
  have isInside : ¬(position % pool.stride ≠ 0 ∨ position / pool.stride ≥ pool.count) := by omega
  unfold poolAllocatorFree
  rw [if_neg accepted, found]
  dsimp only
  rw [if_neg isInside]

/-- A block is given back, or kept as it is where the new size fits. -/
theorem poolAllocatorRealloc_block (shaped : pool.Shaped low high) (bytes : Bytes)
    (nonneg : 0 ≤ pool.available) (less : pool.available < pool.count) {alignment : Int}
    (isBlock : address ∈ pool.blocks) (isSize : 0 ≤ size) (fits : size ≤ pool.blockSize)
    (valid : allocAlignmentValid alignment = true) (le : alignment ≤ pool.alignment)
    (newSize : Int) : poolAllocatorRealloc pool bytes address size newSize alignment =
      if newSize = 0 then ((pool.release bytes address).1, (pool.release bytes address).2, 0)
      else (pool, bytes, if newSize < 0 ∨ newSize > pool.blockSize then 0 else address) := by
  have positive := shaped.positive
  have inside := shaped.block_inside isBlock
  have limit := shaped.inside
  have isWord := shaped.isWord
  have holds := shaped.holds
  have apart := shaped.apart
  have ready := shaped.refused_eq
  obtain ⟨position, found, whole, isIndex⟩ :=
    (shaped.offset_iff valid le (by omega) (by omega)).mp isBlock
  unfold poolAllocatorRealloc
  rw [valid, ready]
  by_cases negative : newSize < 0
  · rw [if_pos (Or.inr (Or.inl negative)), if_neg (by omega), if_pos (Or.inl negative)]
  have accepted : ¬(size < 0 ∨ newSize < 0 ∨ (!true) = true ∨ alignment > pool.alignment ∨
      false = true ∨ pool.available < 0 ∨ pool.available > pool.count) := by
    simp only [Bool.not_true, Bool.false_eq_true, false_or]
    omega
  have isInside : ¬(position % pool.stride ≠ 0 ∨ position / pool.stride ≥ pool.count ∨
      size > pool.blockSize ∨ pool.available ≥ pool.count) := by omega
  rw [if_neg accepted, if_neg (by omega), found]
  dsimp only
  rw [if_neg isInside]
  split
  · rfl
  split
  next large => rw [if_pos (Or.inr large)]
  next large => rw [if_neg (by omega)]

/-- An allocation fails, or takes the first of the free blocks. -/
theorem poolAllocatorRealloc_alloc {free : List Int}
    (chained : Chained bytes pool.freeList free) (available : pool.available = free.length)
    (size alignment : Int) :
    poolAllocatorRealloc pool bytes 0 0 size alignment = (pool, bytes, 0) ∨
      ∃ block rest, free = block :: rest ∧ 0 < size ∧ size ≤ pool.blockSize ∧
        allocAlignmentValid alignment = true ∧ alignment ≤ pool.alignment ∧ block ≠ 0 ∧
        Chained bytes (loadNext bytes block) rest ∧
        poolAllocatorRealloc pool bytes 0 0 size alignment =
          ({ pool with freeList := loadNext bytes block, available := rest.length }, bytes,
            block) := by
  unfold poolAllocatorRealloc
  split
  · exact Or.inl rfl
  next accepted =>
    rw [if_pos rfl]
    split
    · exact Or.inl rfl
    next ready =>
      have valid : allocAlignmentValid alignment = true := by
        by_contra invalid
        simp [invalid] at accepted
      cases free with
      | nil =>
        rw [List.length_nil] at available
        omega
      | cons block rest =>
        obtain ⟨isHead, notNull, others⟩ := chained
        rw [List.length_cons] at available
        have left_ : pool.available - 1 = rest.length := by omega
        refine Or.inr ⟨block, rest, rfl, by omega, by omega, valid, by omega, notNull, others, ?_⟩
        rw [isHead, left_]

/-- The loop chains the blocks from the last one to the first. -/
theorem resetLoop_chained (shaped : pool.Shaped low high) (i : Nat) (le : i ≤ pool.count.toNat)
    {bytes : Bytes} {freeList : Int}
    (chained : Chained bytes freeList
      ((List.range' i (pool.count.toNat - i)).map pool.block)) :
    Chained (resetLoop pool i (bytes, freeList)).1 (resetLoop pool i (bytes, freeList)).2
      pool.blocks := by
  induction i generalizing bytes freeList with
  | zero =>
    rw [Nat.sub_zero, ← List.range_eq_range'] at chained
    exact chained
  | succ i ih =>
    have positive := shaped.positive
    have holds := shaped.holds
    have apart := shaped.apart
    have limit := shaped.inside
    have small := shaped.small
    have isWord := shaped.isWord
    have isBlock : pool.block i ∈ pool.blocks :=
      CPoolAllocator.mem_blocks.mpr ⟨i, by omega, rfl⟩
    have inside := shaped.block_inside isBlock
    have front : 0 ≤ (i : Int) * pool.stride := Int.mul_nonneg (by omega) (by omega)
    have same : u64 (pool.memory + i64 (i * pool.stride)) = pool.block i := by
      unfold CPoolAllocator.block at inside ⊢
      rw [i64_eq (by omega) (by omega), u64_eq (by omega) (by omega)]
    have isHead : 0 ≤ freeList ∧ freeList < 18446744073709551616 := by
      generalize isList : (List.range' (i + 1) (pool.count.toNat - (i + 1))).map pool.block = free
        at chained
      cases free with
      | nil =>
        have isNull : freeList = 0 := chained
        omega
      | cons block rest =>
        have isIn : block ∈ pool.blocks := by
          have isFirst : block ∈ block :: rest := List.mem_cons_self
          rw [← isList, List.mem_map] at isFirst
          obtain ⟨j, isIn, rfl⟩ := isFirst
          rw [List.mem_range'_1] at isIn
          exact CPoolAllocator.mem_blocks.mpr ⟨j, by omega, rfl⟩
        have isInside := shaped.block_inside isIn
        have first : freeList = block := chained.1
        omega
    have more : pool.count.toNat - i = pool.count.toNat - (i + 1) + 1 := by omega
    rw [resetLoop]
    apply ih (by omega)
    rw [same, more, List.range'_succ, List.map_cons]
    refine ⟨rfl, by omega, ?_⟩
    rw [loadNext_storeNext bytes (pool.block i) isHead.1 isHead.2]
    apply chained.congr
    intro other isIn address lower upper
    obtain ⟨j, isLater, rfl⟩ := List.mem_map.mp isIn
    rw [List.mem_range'_1] at isLater
    have later : ((i : Int) + 1) * pool.stride ≤ j * pool.stride :=
      Int.mul_le_mul_of_nonneg_right (by omega) (by omega)
    rw [Int.add_mul, Int.one_mul] at later
    unfold CPoolAllocator.block at lower ⊢
    exact (storeBytes_outside bytes 8 _ freeList (Or.inr (by omega))).symm

theorem poolAllocatorReset_chained (shaped : pool.Shaped low high) (bytes : Bytes) :
    ∃ freeList bytes', poolAllocatorReset pool bytes =
        ({ pool with freeList := freeList, available := pool.count }, bytes') ∧
      Chained bytes' freeList pool.blocks := by
  have counted := shaped.counted
  have chained := @resetLoop_chained low high pool shaped pool.count.toNat (Nat.le_refl _) bytes 0
    (by rw [Nat.sub_self]; exact rfl)
  unfold poolAllocatorReset
  rw [shaped.refused_eq]
  exact ⟨_, _, rfl, chained⟩

end

/-! ## Steps -/

def LiveBlock.start (block : LiveBlock) : Int := block.region.start

/-- Free and live blocks are together the blocks of the pool. -/
structure PoolHistory.Partitioned (history : PoolHistory) (free : List Int) : Prop where
  chained : Chained history.bytes history.pool.freeList free
  available : history.pool.available = free.length
  blocks : (free ++ history.live.map LiveBlock.start).Perm history.pool.blocks
  fits : ∀ block ∈ history.live, 0 < block.region.size ∧
    block.region.size ≤ history.pool.blockSize ∧
    allocAlignmentValid block.alignment = true ∧ block.alignment ≤ history.pool.alignment

section

variable {low high : Int} {history : PoolHistory} {free : List Int}

theorem PoolHistory.Partitioned.nodup (partitioned : history.Partitioned free)
    (shaped : history.pool.Shaped low high) : (free ++ history.live.map LiveBlock.start).Nodup :=
  partitioned.blocks.nodup_iff.mpr shaped.blocks_nodup

theorem PoolHistory.Partitioned.free_mem (partitioned : history.Partitioned free) {block : Int}
    (isFree : block ∈ free) : block ∈ history.pool.blocks :=
  partitioned.blocks.mem_iff.mp (List.mem_append_left _ isFree)

theorem PoolHistory.Partitioned.live_mem (partitioned : history.Partitioned free)
    {block : LiveBlock} (isLive : block ∈ history.live) :
    block.start ∈ history.pool.blocks :=
  partitioned.blocks.mem_iff.mp
    (List.mem_append_right _ (List.mem_map_of_mem isLive))

theorem PoolHistory.Partitioned.head_word (partitioned : history.Partitioned free)
    (shaped : history.pool.Shaped low high) :
    0 ≤ history.pool.freeList ∧ history.pool.freeList < 18446744073709551616 := by
  have chained := partitioned.chained
  cases free with
  | nil =>
    have isNull : history.pool.freeList = 0 := chained
    omega
  | cons block rest =>
    have isHead : history.pool.freeList = block := chained.1
    have inside := shaped.block_inside (partitioned.free_mem List.mem_cons_self)
    have limit := shaped.inside
    have isWord := shaped.isWord
    have positive := shaped.positive
    have holds := shaped.holds
    have apart := shaped.apart
    omega

/-- What holds behind every request: the pool is in shape and the blocks are
those that it had. -/
structure PoolHistory.Valid (low high : Int) (blocks : List Int) (history : PoolHistory) :
    Prop where
  shaped : history.pool.Shaped low high
  blocks_eq : history.pool.blocks = blocks
  partitioned : ∃ free, history.Partitioned free

theorem PoolHistory.Valid.alloc {blocks : List Int} (valid : history.Valid low high blocks)
    (size alignment : Int) : (history.step (.alloc size alignment)).Valid low high blocks := by
  have ⟨shaped, isBlocks, free, partitioned⟩ := valid
  cases poolAllocatorRealloc_alloc partitioned.chained partitioned.available size alignment with
  | inl failed =>
    simp only [PoolHistory.step, failed, if_true]
    exact valid
  | inr taken =>
    obtain ⟨block, rest, rfl, positive, fits, isValid, le, notNull, others, result⟩ := taken
    simp only [PoolHistory.step, result, if_neg notNull]
    refine ⟨shaped.update _ _, isBlocks, rest, others, rfl, ?_, ?_⟩
    · have perm := partitioned.blocks
      rw [List.map_cons]
      exact List.perm_middle.trans perm
    · intro other isIn
      cases List.mem_cons.mp isIn with
      | inl same =>
        rw [same]
        exact ⟨positive, fits, isValid, le⟩
      | inr isOld => exact partitioned.fits other isOld

theorem PoolHistory.Partitioned.length (partitioned : history.Partitioned free) :
    free.length + history.live.length = history.pool.count.toNat := by
  have size := partitioned.blocks.length_eq
  rw [List.length_append, List.length_map, CPoolAllocator.blocks, List.length_map,
    List.length_range] at size
  exact size

theorem PoolHistory.Partitioned.available_less (partitioned : history.Partitioned free)
    {block : LiveBlock} (isLive : block ∈ history.live) :
    0 ≤ history.pool.available ∧ history.pool.available < history.pool.count := by
  have length := partitioned.length
  have available := partitioned.available
  have some_ := List.length_pos_of_mem isLive
  omega

/-- The chain survives what is stored outside of the free blocks. -/
theorem PoolHistory.Partitioned.chained_congr (partitioned : history.Partitioned free)
    (shaped : history.pool.Shaped low high)
    (same : ∀ address, (∀ block ∈ history.live, address < block.start ∨
      block.start + history.pool.blockSize ≤ address) → history.bytes address = bytes' address) :
    Chained bytes' history.pool.freeList free := by
  apply partitioned.chained.congr
  intro block isFree address lower upper
  apply same
  intro live isLive
  have holds := shaped.holds
  have stride := shaped.apart
  have differs : block ≠ live.start := by
    have disjoint := List.nodup_append.mp (partitioned.nodup shaped)
    exact disjoint.2.2 block isFree live.start (List.mem_map_of_mem isLive)
  have apart := shaped.blocks_apart (partitioned.free_mem isFree) (partitioned.live_mem isLive)
    differs
  unfold Region.Apart Region.stop at apart
  dsimp only at apart
  omega

theorem PoolHistory.Valid.freed {blocks : List Int} (valid : history.Valid low high blocks)
    (index : Nat) : (history.step (.free index)).Valid low high blocks := by
  have ⟨shaped, isBlocks, free, partitioned⟩ := valid
  cases found : history.live[index]? with
  | none =>
    simp only [PoolHistory.step, found]
    exact valid
  | some block =>
    obtain ⟨inside, isBlock⟩ := List.getElem?_eq_some_iff.mp found
    have isLive : block ∈ history.live := List.mem_of_getElem? found
    have isIn := partitioned.live_mem isLive
    have ⟨positive, fits, isValid, le⟩ := partitioned.fits block isLive
    have ⟨nonneg, less⟩ := partitioned.available_less isLive
    have available := partitioned.available
    have holds := shaped.holds
    have stride := shaped.apart
    have lower := (shaped.block_inside isIn).1
    have start := shaped.positive
    have word := partitioned.head_word shaped
    have released := poolAllocatorFree_block shaped history.bytes nonneg less isIn
      (Int.le_of_lt positive) fits isValid le
    have split : (history.live[index] :: history.live.eraseIdx index).Perm history.live :=
      List.getElem_cons_eraseIdx_perm inside
    rw [isBlock] at split
    have isStart : block.region.start = block.start := rfl
    simp only [PoolHistory.step, found]
    rw [isStart, released]
    refine ⟨shaped.update _ _, isBlocks, block.start :: free, ⟨rfl, by omega, ?_⟩, ?_, ?_, ?_⟩
    · show Chained (storeNext history.bytes block.start history.pool.freeList)
        (loadNext (storeNext history.bytes block.start history.pool.freeList) block.start) free
      rw [loadNext_storeNext history.bytes block.start word.1 word.2]
      apply partitioned.chained_congr shaped
      intro address outside
      have isOutside := outside block isLive
      exact (storeBytes_outside history.bytes 8 block.start _ (by omega)).symm
    · show history.pool.available + 1 = ((block.start :: free).length : Nat)
      rw [List.length_cons]
      omega
    · have rest := (split.map LiveBlock.start).append_left free
      rw [List.map_cons] at rest
      exact (List.perm_middle.symm.trans rest).trans partitioned.blocks
    · intro other isOther
      exact partitioned.fits other (List.mem_of_mem_eraseIdx isOther)

theorem PoolHistory.Valid.realloc {blocks : List Int} (valid : history.Valid low high blocks)
    (index : Nat) (size : Int) : (history.step (.realloc index size)).Valid low high blocks := by
  have ⟨shaped, isBlocks, free, partitioned⟩ := valid
  cases found : history.live[index]? with
  | none =>
    simp only [PoolHistory.step, found]
    exact valid
  | some block =>
    obtain ⟨inside, isBlock⟩ := List.getElem?_eq_some_iff.mp found
    have isLive : block ∈ history.live := List.mem_of_getElem? found
    have isIn := partitioned.live_mem isLive
    have ⟨positive, fits, isValid, le⟩ := partitioned.fits block isLive
    have ⟨nonneg, less⟩ := partitioned.available_less isLive
    have notNull : block.start ≠ 0 := by
      have lower := (shaped.block_inside isIn).1
      have start := shaped.positive
      omega
    have resized := poolAllocatorRealloc_block shaped history.bytes nonneg less isIn
      (Int.le_of_lt positive) fits isValid le size
    by_cases isNothing : size = 0
    · have released := poolAllocatorFree_block shaped history.bytes nonneg less isIn
        (Int.le_of_lt positive) fits isValid le
      have isFree : history.step (.realloc index size) = history.step (.free index) := by
        rw [if_pos isNothing] at resized
        unfold LiveBlock.start at resized released
        simp only [PoolHistory.step, found, resized, released, if_pos isNothing]
      rw [isFree]
      exact valid.freed index
    rw [if_neg isNothing] at resized
    unfold LiveBlock.start at resized notNull
    by_cases refused : size < 0 ∨ size > history.pool.blockSize
    · rw [if_pos refused] at resized
      simp only [PoolHistory.step, found, resized, if_neg isNothing, if_true]
      exact valid
    rw [if_neg refused] at resized
    have starts : (history.live.set index
        ⟨⟨block.region.start, size⟩, block.alignment⟩).map LiveBlock.start =
        history.live.map LiveBlock.start := by
      have less : index < (history.live.map LiveBlock.start).length := by rwa [List.length_map]
      have same : (history.live.map LiveBlock.start)[index] = block.region.start := by
        rw [List.getElem_map, isBlock]
        rfl
      rw [List.map_set]
      change (history.live.map LiveBlock.start).set index block.region.start = _
      rw [← same]
      exact List.set_getElem_self _
    simp only [PoolHistory.step, found, resized, if_neg isNothing, if_neg notNull]
    refine ⟨shaped, isBlocks, free, partitioned.chained, partitioned.available, ?_, ?_⟩
    · rw [starts]
      exact partitioned.blocks
    · intro other isOther
      cases List.mem_or_eq_of_mem_set isOther with
      | inl isOld => exact partitioned.fits other isOld
      | inr same =>
        rw [same]
        exact ⟨show 0 < size by omega, show size ≤ history.pool.blockSize by omega, isValid, le⟩

theorem PoolHistory.Valid.step {blocks : List Int} (valid : history.Valid low high blocks)
    (request : PoolRequest) : (history.step request).Valid low high blocks := by
  cases request with
  | alloc size alignment => exact valid.alloc size alignment
  | free index => exact valid.freed index
  | realloc index size => exact valid.realloc index size
  | write data =>
    have ⟨shaped, isBlocks, free, partitioned⟩ := valid
    refine ⟨shaped, isBlocks, free, ?_, partitioned.available, partitioned.blocks,
      partitioned.fits⟩
    apply partitioned.chained_congr shaped
    intro address outside
    have notOwned : history.owned address = false := by
      unfold PoolHistory.owned
      rw [List.any_eq_false]
      intro block isLive
      have isOutside := outside block isLive
      unfold LiveBlock.start at isOutside
      simp only [Bool.and_eq_true, decide_eq_true_eq]
      omega
    show history.bytes address = if history.owned address then data address
      else history.bytes address
    rw [notOwned]
    rfl
  | reset =>
    have ⟨shaped, isBlocks, _⟩ := valid
    obtain ⟨freeList, bytes, result, chained⟩ := poolAllocatorReset_chained shaped history.bytes
    have counted := shaped.counted
    simp only [PoolHistory.step, result]
    refine ⟨shaped.update _ _, isBlocks, history.pool.blocks, chained, ?_, ?_, ?_⟩
    · show history.pool.count = (history.pool.blocks.length : Nat)
      rw [CPoolAllocator.blocks, List.length_map, List.length_range]
      omega
    · rw [List.map_nil, List.append_nil]
      exact List.Perm.refl _
    · intro block isIn
      cases isIn

theorem PoolHistory.Valid.run {blocks : List Int} (valid : history.Valid low high blocks)
    (requests : List PoolRequest) :
    (requests.foldl PoolHistory.step history).Valid low high blocks := by
  induction requests generalizing history with
  | nil => exact valid
  | cons request rest ih => exact ih (valid.step request)

end

/-! ## The pool -/

/-- What a caller of the allocator relies on in every state. -/
structure PoolHistory.Sound (memory capacity : Int) (blocks : List Int) (history : PoolHistory) :
    Prop where
  partition : ∃ free, Chained history.bytes history.pool.freeList free ∧ free.Nodup ∧
    history.pool.available = free.length ∧
    (free ++ history.live.map LiveBlock.start).Perm blocks
  nodup : blocks.Nodup
  aligned : ∀ block ∈ blocks, block % history.pool.alignment = 0
  inside : ∀ block ∈ blocks,
    Region.Within memory (memory + capacity) ⟨block, history.pool.blockSize⟩
  apart : ∀ one ∈ blocks, ∀ two ∈ blocks, one ≠ two →
    Region.Apart ⟨one, history.pool.blockSize⟩ ⟨two, history.pool.blockSize⟩
  live : ∀ block ∈ history.live, block.region.size ≤ history.pool.blockSize ∧
    block.region.start % block.alignment = 0
  /-- No live block is handed out. -/
  alloc : ∀ size alignment result,
    poolAllocatorRealloc history.pool history.bytes 0 0 size alignment = result →
      result.2.1 = history.bytes ∧ (result.2.2 = 0 ∧ result.1 = history.pool ∨
        result.2.2 ∈ blocks ∧ result.2.2 ∉ history.live.map LiveBlock.start)
  /-- What is not the start of a block is not freed. -/
  foreign : ∀ address size alignment, 0 ≤ address → address < 18446744073709551616 →
    address ∉ blocks →
      poolAllocatorFree history.pool history.bytes address size alignment =
        (history.pool, history.bytes)

section

variable {memory capacity blockSize alignment : Int}

theorem PoolHistory.Valid.sound {blocks : List Int} {history : PoolHistory}
    (valid : history.Valid memory (memory + capacity) blocks) :
    history.Sound memory capacity blocks := by
  obtain ⟨shaped, isBlocks, free, partitioned⟩ := valid
  have nodup := List.nodup_append.mp (partitioned.nodup shaped)
  have stride := shaped.apart
  have lower := shaped.low_le
  have limit := shaped.inside
  subst isBlocks
  refine ⟨⟨free, partitioned.chained, nodup.1, partitioned.available, partitioned.blocks⟩,
    shaped.blocks_nodup, fun block => shaped.block_aligned, ?_, ?_, ?_, ?_, ?_⟩
  · intro block isBlock
    have inside := shaped.block_inside isBlock
    refine ⟨by show memory ≤ block; omega, ?_⟩
    show block + history.pool.blockSize ≤ memory + capacity
    omega
  · intro one isOne two isTwo differs
    have apart := shaped.blocks_apart isOne isTwo differs
    unfold Region.Apart Region.stop at apart ⊢
    dsimp only at apart ⊢
    omega
  · intro block isLive
    obtain ⟨_, fits, isValid, le⟩ := partitioned.fits block isLive
    exact ⟨fits, aligned_of_le shaped.valid isValid le
      (shaped.block_aligned (partitioned.live_mem isLive))⟩
  · intro size alignment result isResult
    subst isResult
    cases poolAllocatorRealloc_alloc partitioned.chained partitioned.available size alignment with
    | inl failed =>
      rw [failed]
      exact ⟨rfl, Or.inl ⟨rfl, rfl⟩⟩
    | inr taken =>
      obtain ⟨block, rest, rfl, _, _, _, _, _, _, result⟩ := taken
      rw [result]
      refine ⟨rfl, Or.inr ⟨partitioned.free_mem List.mem_cons_self, ?_⟩⟩
      intro isLive
      exact nodup.2.2 block List.mem_cons_self block isLive rfl
  · intro address size alignment nonneg isWord foreign
    exact poolAllocatorFree_foreign shaped history.bytes nonneg isWord foreign size alignment

theorem poolAllocatorInit_valid {bytes : Bytes} {pool : CPoolAllocator}
    (made : poolAllocatorInit bytes memory capacity blockSize alignment = some (pool, bytes'))
    (positive : 0 ≤ memory) (inside : memory + capacity ≤ 18446744073709551616)
    (small : capacity ≤ i64Max) :
    PoolHistory.Valid memory (memory + capacity) pool.blocks ⟨pool, bytes', []⟩ := by
  unfold poolAllocatorInit at made
  split at made
  · cases made
  next accepted =>
    have valid : allocAlignmentValid alignment = true := by
      by_contra invalid
      simp [invalid] at accepted
    obtain ⟨frontNonneg, _, frontAligned, _⟩ := padding_spec valid positive
    obtain ⟨gapNonneg, gapLess, gapAligned, _⟩ := padding_spec valid (show 0 ≤ blockSize by omega)
    dsimp only at made
    generalize padding memory alignment = front at made frontNonneg frontAligned
    generalize padding blockSize alignment = gap at made gapNonneg gapLess gapAligned
    split at made
    · cases made
    next room =>
      have isStride : i64 (blockSize + gap) = blockSize + gap := i64_eq (by omega) (by omega)
      have isMemory : u64 (memory + front) = memory + front := by
        unfold u64 at room ⊢
        omega
      rw [isStride, isMemory] at made
      split at made
      · cases made
      next counted =>
        have nonneg : 0 ≤ (capacity - front) / (blockSize + gap) :=
          Int.ediv_nonneg (by omega) (by omega)
        have fits : (capacity - front) / (blockSize + gap) * (blockSize + gap) ≤ capacity - front :=
          Int.ediv_mul_le _ (by omega)
        have shaped : CPoolAllocator.Shaped memory (memory + capacity)
            ⟨memory + front, 0, blockSize, blockSize + gap,
              (capacity - front) / (blockSize + gap), 0, alignment⟩ := by
          have isLow : memory ≤ memory + front := by omega
          have isPositive : 0 < memory + front := by omega
          have holds : 8 ≤ blockSize := by omega
          have stride : blockSize ≤ blockSize + gap := by omega
          have isCount : 0 < (capacity - front) / (blockSize + gap) := by omega
          have isInside : memory + front + (capacity - front) / (blockSize + gap) *
              (blockSize + gap) ≤ memory + capacity := by omega
          have isSmall : (capacity - front) / (blockSize + gap) * (blockSize + gap) ≤ i64Max := by
            omega
          exact ⟨isLow, isPositive, frontAligned, gapAligned, valid, holds, stride, isCount,
            isInside, isSmall, inside⟩
        obtain ⟨freeList, bytes'', result, chained⟩ := poolAllocatorReset_chained shaped bytes
        rw [result] at made
        cases made
        refine ⟨shaped.update _ _, rfl, _, chained, ?_, ?_, ?_⟩
        · rw [CPoolAllocator.blocks, List.length_map, List.length_range]
          dsimp only
          omega
        · rw [List.map_nil, List.append_nil]
          exact List.Perm.refl _
        · intro block isIn
          cases isIn

/-- In every history the free and the live blocks are a partition of the blocks
of the pool. -/
theorem poolAllocator_sound {bytes bytes' : Bytes} {pool : CPoolAllocator}
    (made : poolAllocatorInit bytes memory capacity blockSize alignment = some (pool, bytes'))
    (positive : 0 ≤ memory) (inside : memory + capacity ≤ 18446744073709551616)
    (small : capacity ≤ i64Max) (requests : List PoolRequest) :
    PoolHistory.Sound memory capacity pool.blocks
      (requests.foldl PoolHistory.step ⟨pool, bytes', []⟩) :=
  ((poolAllocatorInit_valid made positive inside small).run requests).sound

theorem poolAllocator_sound_small :
    ∃ pool bytes, poolAllocatorInit (fun _ => 0) 4096 64 16 16 = some (pool, bytes) ∧
      PoolHistory.Sound 4096 64 pool.blocks
        ([.alloc 8 8, .alloc 16 16, .free 0, .reset].foldl PoolHistory.step
          ⟨pool, bytes, []⟩) := by
  have isSome : (poolAllocatorInit (fun _ => 0) 4096 64 16 16).isSome := by decide
  obtain ⟨⟨pool, bytes⟩, made⟩ := Option.isSome_iff_exists.mp isSome
  exact ⟨pool, bytes, made,
    poolAllocator_sound made (by decide) (by decide) (by decide) _⟩

end

/-! ## What is left to allocate -/

/-- The size fits into a block, and the pool keeps the alignment. -/
def CPoolAllocator.Serves (pool : CPoolAllocator) (size alignment : Int) : Prop :=
  0 < size ∧ size ≤ pool.blockSize ∧ allocAlignmentValid alignment = true ∧
    alignment ≤ pool.alignment

instance (pool : CPoolAllocator) (size alignment : Int) : Decidable (pool.Serves size alignment) :=
  inferInstanceAs (Decidable (_ ∧ _ ∧ _ ∧ _))

section

variable {low high memory capacity blockSize alignment : Int}

/-- As long as a block is free, an allocation gets one. -/
theorem CPoolAllocator.Shaped.alloc_serves {pool : CPoolAllocator} {bytes : Bytes} {block : Int}
    {rest : List Int} (shaped : pool.Shaped low high)
    (chained : Chained bytes pool.freeList (block :: rest))
    (available : pool.available = (block :: rest).length)
    (counted : (block :: rest).length ≤ pool.count.toNat) (serves : pool.Serves size alignment) :
    (poolAllocatorRealloc pool bytes 0 0 size alignment).2.2 ≠ 0 := by
  obtain ⟨isHead, notNull, -⟩ := chained
  obtain ⟨positive, fits, isValid, keeps⟩ := serves
  have refused := shaped.refused_eq
  rw [List.length_cons] at available counted
  have accepted : ¬((0 : Int) < 0 ∨ size < 0 ∨ !allocAlignmentValid alignment ∨
      alignment > pool.alignment ∨ pool.refused ∨ pool.available < 0 ∨
      pool.available > pool.count) := by
    rw [isValid, refused, Bool.not_true]
    simp only [Bool.false_eq_true, false_or]
    omega
  have ready : ¬((0 : Int) ≠ 0 ∨ size = 0 ∨ size > pool.blockSize ∨ pool.available = 0 ∨
      pool.freeList = 0) := by
    rw [isHead]
    omega
  unfold poolAllocatorRealloc
  rw [if_neg accepted, if_pos rfl, if_neg ready]
  rw [isHead]
  exact notNull

theorem PoolHistory.Valid.alloc_length {blocks : List Int} {history : PoolHistory}
    (valid : history.Valid low high blocks) (serves : history.pool.Serves size alignment) :
    (history.step (.alloc size alignment)).live.length =
        min (history.live.length + 1) history.pool.count.toNat ∧
      (history.step (.alloc size alignment)).pool.count = history.pool.count ∧
      ∀ size' alignment', history.pool.Serves size' alignment' →
        (history.step (.alloc size alignment)).pool.Serves size' alignment' := by
  obtain ⟨shaped, -, free, partitioned⟩ := valid
  have lengths := partitioned.length
  cases poolAllocatorRealloc_alloc partitioned.chained partitioned.available size alignment with
  | inl failed =>
    have noFree : free = [] := by
      cases free with
      | nil => rfl
      | cons block rest =>
        have served := shaped.alloc_serves partitioned.chained partitioned.available (by omega) serves
        rw [failed] at served
        exact absurd rfl served
    simp only [PoolHistory.step, failed, if_true]
    rw [noFree, List.length_nil] at lengths
    exact ⟨by omega, trivial, fun _ _ serves => serves⟩
  | inr taken =>
    obtain ⟨block, rest, rfl, _, _, _, _, notNull, _, result⟩ := taken
    simp only [PoolHistory.step, result, if_neg notNull, List.length_cons]
    rw [List.length_cons] at lengths
    exact ⟨by omega, trivial, fun _ _ serves => serves⟩

theorem PoolHistory.Valid.allocs_length {blocks : List Int} {history : PoolHistory}
    (valid : history.Valid low high blocks) (wanted : List (Int × Int))
    (serves : ∀ w ∈ wanted, history.pool.Serves w.1 w.2) :
    ((wanted.map fun w => PoolRequest.alloc w.1 w.2).foldl PoolHistory.step history).live.length =
      min (history.live.length + wanted.length) history.pool.count.toNat := by
  induction wanted generalizing history with
  | nil =>
    obtain ⟨-, -, free, partitioned⟩ := valid
    have lengths := partitioned.length
    simp only [List.map_nil, List.foldl_nil, List.length_nil]
    omega
  | cons w rest ih =>
    obtain ⟨length, count, keeps⟩ := valid.alloc_length (serves w List.mem_cons_self)
    rw [List.map_cons, List.foldl_cons, ih (valid.alloc w.1 w.2)
      fun w' member => keeps _ _ (serves w' (List.mem_cons_of_mem w member)), length, count,
      List.length_cons]
    omega

/-- Nothing is lost: after every history, allocations that the pool can serve succeed until as many
blocks are live as the pool has, and no longer. -/
theorem poolAllocator_serves {bytes : Bytes} {pool : CPoolAllocator}
    (made : poolAllocatorInit bytes memory capacity blockSize alignment = some (pool, bytes'))
    (positive : 0 ≤ memory) (inside : memory + capacity ≤ 18446744073709551616)
    (small : capacity ≤ i64Max) (requests : List PoolRequest) (wanted : List (Int × Int))
    (serves : ∀ w ∈ wanted,
      (requests.foldl PoolHistory.step ⟨pool, bytes', []⟩).pool.Serves w.1 w.2) :
    ((wanted.map fun w => PoolRequest.alloc w.1 w.2).foldl PoolHistory.step
        (requests.foldl PoolHistory.step ⟨pool, bytes', []⟩)).live.length =
      min ((requests.foldl PoolHistory.step ⟨pool, bytes', []⟩).live.length + wanted.length)
        (requests.foldl PoolHistory.step ⟨pool, bytes', []⟩).pool.count.toNat :=
  ((poolAllocatorInit_valid made positive inside small).run requests).allocs_length wanted serves

theorem poolAllocator_serves_four :
    ∃ pool bytes, poolAllocatorInit (fun _ => 0) 4096 64 16 16 = some (pool, bytes) ∧
      (([(8, 8), (16, 16), (1, 1), (16, 4), (9, 2)].map fun w => PoolRequest.alloc w.1 w.2).foldl
        PoolHistory.step ([PoolRequest.alloc 8 8, .realloc 0 16, .alloc 4 4, .realloc 0 0].foldl
          PoolHistory.step ⟨pool, bytes, []⟩)).live.length = 4 := by
  have isSome : (poolAllocatorInit (fun _ => 0) 4096 64 16 16).isSome := by decide
  refine ⟨_, _, (Option.some_get isSome).symm, ?_⟩
  rw [poolAllocator_serves (Option.some_get isSome).symm (by decide) (by decide) (by decide)]
  · decide +kernel
  · decide +kernel

end

end Aholyc.Alloc
